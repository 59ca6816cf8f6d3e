import Mathlib
import Telemetry.Real64.Decimal

/-! Which ratios round to a number. The basin of a number reaches half a gap to either side, and the
gap below a power of two is half the one above it. A ratio that lies in the basin of a number has as
many places above the significand as the number, or one fewer just below a power of two; in either
case it rounds to the magnitude of the number. -/

namespace Telemetry.Real64

/-- A ratio less than a half from a whole number rounds to it, and so does one a half from an even
number. -/
theorem divNearest_eq {n d k : ℕ} (hd : 0 < d) (hlow : 2 * (k * d) ≤ 2 * n + d)
    (hhigh : 2 * n ≤ 2 * (k * d) + d)
    (htie : k % 2 = 0 ∨ 2 * (k * d) < 2 * n + d ∧ 2 * n < 2 * (k * d) + d) :
    divNearest n d = k := by
  have hdiv : d * (n / d) + n % d = n := Nat.div_add_mod n d
  have hmod : n % d < d := Nat.mod_lt n hd
  unfold divNearest
  generalize n / d = q at hdiv ⊢
  generalize n % d = r at hdiv hmod ⊢
  have hkq : k = q ∨ k = q + 1 := by
    have hle : q ≤ k := by
      by_contra h
      have : d * (k + 1) ≤ d * q := Nat.mul_le_mul_left d (by omega)
      rw [Nat.mul_add, Nat.mul_one, Nat.mul_comm d k] at this
      omega
    have hge : k ≤ q + 1 := by
      by_contra h
      have : d * (q + 2) ≤ d * k := Nat.mul_le_mul_left d (by omega)
      rw [Nat.mul_add, Nat.mul_comm d k] at this
      omega
    omega
  have hcomm : d * q = q * d := Nat.mul_comm d q
  rcases hkq with rfl | rfl
  · rw [if_pos]
    omega
  · rw [Nat.add_mul] at *
    rw [if_neg]
    omega

theorem excess_le_iff (u s : ℕ) : excess u ≤ s ↔ u < 2 ^ (53 + s) := by
  unfold excess
  rcases Nat.eq_zero_or_pos u with rfl | hu
  · simp
  · rw [← Nat.log2_lt hu.ne']
    omega

theorem le_of_excess_eq_succ {u s : ℕ} (h : excess u = s + 1) : 2 ^ (53 + s) ≤ u := by
  rw [← Nat.not_lt, ← excess_le_iff]
  omega

/-- A ratio between the ends of a basin, or at one of them if they belong to it. -/
@[mk_iff]
structure Basin.Contains (b : Basin) (n d : ℕ) : Prop where
  low : b.low * d ≤ n
  high : n ≤ b.high * d
  inside : b.closed ∨ b.low * d < n ∧ n < b.high * d

theorem Basin.contains_of_holds {b : Basin} {point : ℕ} (h : b.holds point) :
    b.Contains point quarterScale := by
  unfold holds at h
  split_ifs at h with hclosed
  · simp only [Bool.and_eq_true, decide_eq_true_eq] at h
    exact ⟨h.1, h.2, Or.inl hclosed⟩
  · simp only [Bool.and_eq_true, decide_eq_true_eq] at h
    exact ⟨h.1.le, h.2.le, Or.inr h⟩

section

variable {s k n d : ℕ}

/-- The basin of `k` gaps of `2 ^ s` units, in gaps: a half to either side, or a quarter below the
least significand that has a smaller gap below it. -/
theorem contains_gaps (hs : excess (k * 2 ^ s) = s) (h : (basin (k * 2 ^ s)).Contains n d) :
    4 * (k * (2 ^ s * d)) ≤ n + 2 * (2 ^ s * d) ∧ n ≤ 4 * (k * (2 ^ s * d)) + 2 * (2 ^ s * d) ∧
      (k % 2 = 0 ∨ 4 * (k * (2 ^ s * d)) < n + 2 * (2 ^ s * d) ∧
        n < 4 * (k * (2 ^ s * d)) + 2 * (2 ^ s * d)) ∧
      (s ≠ 0 → k = 2 ^ 52 → 4 * (k * (2 ^ s * d)) ≤ n + 2 ^ s * d) := by
  obtain ⟨hlow, hhigh, hinside⟩ := h
  have hpower : k * 2 ^ s = 2 ^ (52 + s) ↔ k = 2 ^ 52 := by
    rw [Nat.pow_add, Nat.mul_left_inj (Nat.two_pow_pos s).ne']
  simp only [basin, hs, hpower, Nat.mul_div_cancel _ (Nat.two_pow_pos s), beq_iff_eq, Nat.sub_mul,
    Nat.add_mul, Nat.mul_assoc] at hlow hhigh hinside
  generalize k * (2 ^ s * d) = whole at *
  generalize hgap : 2 ^ s * d = gap at *
  split_ifs at hlow hinside <;> simp only [hgap, Nat.mul_assoc] at hlow hinside <;> omega

theorem roundUnits_eq (hd : 0 < d) (hs : excess (k * 2 ^ s) = s)
    (h : (basin (k * 2 ^ s)).Contains (4 * n) d) :
    roundUnits n d = min infinityMagnitude (s * 2 ^ 52 + k) := by
  have hpos : 0 < 2 ^ s := Nat.two_pow_pos s
  have hgap : 0 < 2 ^ s * d := Nat.mul_pos hpos hd
  have hk : k < 2 ^ 53 := by
    have := (excess_le_iff _ _).1 hs.le
    rw [Nat.pow_add] at this
    exact Nat.lt_of_mul_lt_mul_right this
  obtain ⟨hlow, hhigh, hinside, hnarrow⟩ := contains_gaps hs h
  -- the whole units have no more places than the number
  have hle : excess (n / d) ≤ s := by
    rw [excess_le_iff, Nat.div_lt_iff_lt_mul hd, Nat.pow_add, Nat.mul_assoc]
    have : k * (2 ^ s * d) ≤ (2 ^ 53 - 1) * (2 ^ s * d) := Nat.mul_le_mul_right _ (by omega)
    omega
  unfold roundUnits
  rcases hle.eq_or_lt with hsame | hfewer
  · have hround : divNearest n (d * 2 ^ s) = k := by
      rw [Nat.mul_comm d]
      exact divNearest_eq hgap (by omega) (by omega) (by omega)
    simp only [hsame, hround]
  · -- one place fewer: the number is a power of two and the ratio is just below it
    obtain ⟨t, rfl⟩ : ∃ t, s = t + 1 := ⟨s - 1, by omega⟩
    have hsmall : 2 ^ 53 * (2 ^ t * d) > n := by
      have := (excess_le_iff _ _).1 (Nat.le_of_lt_succ hfewer)
      rwa [Nat.div_lt_iff_lt_mul hd, Nat.pow_add, Nat.mul_assoc] at this
    have hlarge : 2 ^ 52 ≤ k := by
      have := le_of_excess_eq_succ hs
      rw [show 53 + t = 52 + (t + 1) by omega, Nat.pow_add] at this
      exact Nat.le_of_mul_le_mul_right this hpos
    have hstep : 2 ^ (t + 1) * d = 2 * (2 ^ t * d) := by
      rw [Nat.pow_succ, Nat.mul_comm _ 2, Nat.mul_assoc]
    rw [hstep] at hlow hnarrow hgap
    have hk52 : k = 2 ^ 52 := by
      by_contra hne
      have : (2 ^ 52 + 1) * (2 * (2 ^ t * d)) ≤ k * (2 * (2 ^ t * d)) :=
        Nat.mul_le_mul_right _ (by omega)
      omega
    have hnear := hnarrow (by omega) hk52
    rw [hk52] at hnear
    have hplaces : excess (n / d) = t := by
      refine Nat.le_antisymm (by omega) ?_
      rcases Nat.eq_zero_or_pos t with rfl | ht
      · exact Nat.zero_le _
      · obtain ⟨r, rfl⟩ : ∃ r, t = r + 1 := ⟨t - 1, by omega⟩
        rw [Nat.succ_le_iff, ← Nat.not_le, excess_le_iff, Nat.not_lt, Nat.le_div_iff_mul_le hd,
          show 53 + r = 52 + (r + 1) by omega, Nat.pow_add, Nat.mul_assoc]
        omega
    have hround : divNearest n (d * 2 ^ t) = 2 ^ 53 := by
      rw [Nat.mul_comm d]
      exact divNearest_eq (by omega) (by omega) (by omega) (Or.inl (by norm_num))
    have hcarry : t * 2 ^ 52 + 2 ^ 53 = (t + 1) * 2 ^ 52 + 2 ^ 52 := by omega
    simp only [hplaces, hround, hk52, hcarry]

end

end Telemetry.Real64
