import Mathlib.Order.Nat
import Telemetry.Gzip

/-! Inflating under a limit. What is inflated does not depend on the limit: if it fits one, then every
limit that it fits gives the same bytes, and every other one is found to be too small. -/

namespace Telemetry.Deflate

/-- A reader that is left with `size` bytes ends the same way under all limits that its output fits,
and is full under the others. -/
def Limited (size : ℕ) (read : ℕ → Except Fault Progress) : Prop :=
  ∀ limit p, size ≤ limit → read limit = .ok p → size ≤ p.out.size ∧ p.out.size ≤ limit ∧
    ∀ other, size ≤ other → read other = if p.out.size ≤ other then .ok p else .error .full

namespace Limited

theorem error (size : ℕ) (fault : Fault) : Limited size fun _ => .error fault :=
  fun _ _ _ h => nomatch h

theorem ok (p : Progress) : Limited p.out.size fun _ => .ok p := by
  intro limit q hlimit h
  obtain rfl : p = q := Except.ok.inj h
  exact ⟨Nat.le_refl _, hlimit, fun other hother => (if_pos hother).symm⟩

theorem grow {size more : ℕ} {read : ℕ → Except Fault Progress} (hmore : size ≤ more)
    (h : Limited more read) :
    Limited size fun limit => if more ≤ limit then read limit else .error .full := by
  intro limit p _ hp
  simp only at hp
  split_ifs at hp with hroom
  obtain ⟨hgrown, hfits, hother⟩ := h limit p hroom hp
  refine ⟨hmore.trans hgrown, hfits, fun other _ => ?_⟩
  simp only
  by_cases hroom' : more ≤ other
  · rw [if_pos hroom']
    exact hother other hroom'
  · rw [if_neg hroom', if_neg (by omega)]

theorem bind {size : ℕ} {read : ℕ → Except Fault Progress}
    {next : Progress → ℕ → Except Fault Progress} (hread : Limited size read)
    (hnext : ∀ p, Limited p.out.size (next p)) :
    Limited size fun limit => read limit >>= (next · limit) := by
  intro limit q hlimit hq
  simp only at hq ⊢
  cases hp : read limit with
  | error fault => simp [hp, Bind.bind, Except.bind] at hq
  | ok p =>
    rw [hp] at hq
    obtain ⟨hgrown, hfits, hsame⟩ := hread limit p hlimit hp
    obtain ⟨hgrown', hfits', hsame'⟩ := hnext p limit q hfits hq
    refine ⟨hgrown.trans hgrown', hfits', fun other hother => ?_⟩
    simp only [hsame other hother]
    by_cases hroom : p.out.size ≤ other
    · rw [if_pos hroom]
      exact hsame' other hroom
    · rw [if_neg hroom, if_neg (by omega)]
      rfl

end Limited

theorem size_copyBack (distance n : ℕ) (out : ByteArray) :
    (copyBack distance n out).size = out.size + n := by
  induction n generalizing out with
  | zero => rfl
  | succ n ih => rw [copyBack, ih, ByteArray.size_push, Nat.add_right_comm, Nat.add_assoc]

theorem size_copyFrom (data : ByteArray) (start n : ℕ) (out : ByteArray) :
    (copyFrom data start n out).size = out.size + n := by
  induction n generalizing start out with
  | zero => rfl
  | succ n ih => rw [copyFrom, ih, ByteArray.size_push, Nat.add_right_comm, Nat.add_assoc]

section

variable (data : ByteArray)

theorem limited_symbols (literals distances : Code) (fuel pos : ℕ) (out : ByteArray) :
    Limited out.size fun limit => symbols data limit literals distances fuel pos out := by
  induction fuel generalizing pos out with
  | zero =>
    simp only [symbols]
    exact .error _ _
  | succ fuel ih =>
    simp only [symbols]
    cases literals.decode data pos with
    | none => exact .error _ _
    | some found =>
      obtain ⟨symbol, pos⟩ := found
      dsimp only
      split_ifs with hliteral hend
      · -- a literal takes one byte
        have hpush := ih pos (out.push (UInt8.ofNat symbol))
        rw [ByteArray.size_push] at hpush
        exact hpush.grow (Nat.le_succ _)
      · exact .ok ⟨out, pos⟩
      · cases match? data distances symbol pos with
        | none => exact .error _ _
        | some found =>
          obtain ⟨length, distance, pos⟩ := found
          dsimp only
          split_ifs with hdistance
          · exact .error _ _
          · have hcopy := ih pos (copyBack distance length out)
            rw [size_copyBack] at hcopy
            exact hcopy.grow (Nat.le_add_right _ _)

theorem limited_storedBlock (pos : ℕ) (out : ByteArray) :
    Limited out.size fun limit => storedBlock data limit pos out := by
  simp only [storedBlock]
  split
  · next length check _ _ =>
    generalize (pos + 7) / 8 = start
    by_cases hcheck : length + check ≠ 0xffff
    · simp only [if_pos hcheck]
      exact .error _ _
    · simp only [if_neg hcheck]
      by_cases hleft : data.size - (start + 4) < length
      · -- too few bytes are left whatever the limit is
        intro limit p _ hp
        simp only [if_pos hleft] at hp
        split_ifs at hp
      · have hcopy := Limited.ok
          ⟨copyFrom data (start + 4) length out, 8 * (start + 4 + length)⟩
        simp only [size_copyFrom] at hcopy
        have hmin : min length (data.size - (start + 4)) = length := by omega
        simp only [hmin, if_neg hleft]
        simpa only [← not_le, ite_not] using hcopy.grow (Nat.le_add_right _ _)
  · exact .error _ _

theorem limited_block (type pos : ℕ) (out : ByteArray) :
    Limited out.size fun limit => block data limit type pos out := by
  unfold block
  split
  · exact limited_storedBlock data pos out
  · exact limited_symbols data _ _ _ pos out
  · cases codes? data pos with
    | none => exact .error _ _
    | some found => exact limited_symbols data _ _ _ _ out
  · exact .error _ _

theorem limited_blocks (fuel pos : ℕ) (out : ByteArray) :
    Limited out.size fun limit => blocks data limit fuel pos out := by
  induction fuel generalizing pos out with
  | zero =>
    simp only [blocks]
    exact .error _ _
  | succ fuel ih =>
    simp only [blocks]
    split
    · next last type _ _ =>
      have hnext (p : Progress) : Limited p.out.size fun limit =>
          if last = 1 then .ok p else blocks data limit fuel p.pos p.out := by
        split_ifs
        · exact .ok p
        · exact ih p.pos p.out
      convert (limited_block data type (pos + 3) out).bind hnext using 2 with limit
      cases block data limit type (pos + 3) out <;> rfl
    · exact .error _ _

theorem limited_inflate (pos : ℕ) : Limited 0 fun limit => inflate data limit pos :=
  limited_blocks data _ pos ByteArray.empty

end
end Deflate

namespace Gzip

/-- What is inflated under one limit fits it, and is the same under every limit that it fits. -/
theorem decompress_of_ok {limit : ℕ} {data plain : ByteArray}
    (h : decompress limit data = .ok plain) :
    plain.size ≤ limit ∧ ∀ other, decompress other data =
      if plain.size ≤ other then .ok plain else .error (.tooLarge other) := by
  unfold decompress at h ⊢
  split at h
  · simp at h
  · next start hstart =>
    have hlimited := Deflate.limited_inflate data (8 * start) limit
    split at h
    · simp at h
    · simp at h
    · next p hp =>
      split_ifs at h with htrailer
      obtain rfl : p.out = plain := Except.ok.inj h
      obtain ⟨-, hfits, hsame⟩ := hlimited p (Nat.zero_le _) hp
      refine ⟨hfits, fun other => ?_⟩
      simp only [hsame other (Nat.zero_le _)]
      split_ifs with hroom
      · simp [htrailer]
      · rfl

end Gzip
end Telemetry
