import Telemetry.Proofs.Rounding

/-! The shortest decimal of a finite number reads back as that number, and so does every decimal of
the same value: which digits are written decides nothing about the number, only how many they are. -/

namespace Telemetry

namespace Decimal

/-- The absolute value of a decimal is `num / den`. -/
def num (d : Decimal) : ℕ := d.coeff * 10 ^ d.exponent.toNat

def den (d : Decimal) : ℕ := 10 ^ (-d.exponent).toNat

/-- The absolute value of a decimal in quarters of the unit of `Real64.units` is `quarters / den`. -/
def quarters (d : Decimal) : ℕ := 4 * (d.num * 2 ^ 1074)

/-- Decimals of one sign and one value, in whatever digits. -/
structure Same (d e : Decimal) : Prop where
  negative : d.negative = e.negative
  ratio : d.num * e.den = e.num * d.den

theorem den_pos (d : Decimal) : 0 < d.den := Nat.pow_pos (by omega)

theorem quarters_mul (d : Decimal) (n : ℕ) : d.quarters * n = d.num * n * 2 ^ 1076 := by
  have htwo : 2 ^ 1076 = 4 * 2 ^ 1074 := by decide +kernel
  rw [quarters, htwo]
  generalize 2 ^ 1074 = unit
  ring

theorem quarters_eq_zero {d : Decimal} (hd : d.num = 0) : d.quarters = 0 := by
  rw [quarters, hd]
  generalize 2 ^ 1074 = unit
  omega

theorem num_lt_of_top {d : Decimal} (h : d.exponent + decimalLength d.coeff < -323) :
    d.num * 10 ^ 324 < d.den := by
  have hdigits : d.coeff < 10 ^ decimalLength d.coeff :=
    (Nat.length_toDigits_le_iff (by omega) Nat.length_toDigits_pos).1 le_rfl
  have hzero : d.exponent.toNat = 0 := by omega
  calc d.num * 10 ^ 324 = d.coeff * 10 ^ 324 := by rw [num, hzero, Nat.pow_zero, Nat.mul_one]
    _ < 10 ^ decimalLength d.coeff * 10 ^ 324 :=
      Nat.mul_lt_mul_of_pos_right hdigits (Nat.pow_pos (by omega))
    _ = 10 ^ (decimalLength d.coeff + 324) := (Nat.pow_add 10 _ 324).symm
    _ ≤ d.den := Nat.pow_le_pow_right (by omega) (by omega)

theorem le_num_of_top {d : Decimal} (hd : d.coeff ≠ 0)
    (h : 310 ≤ d.exponent + decimalLength d.coeff) : 10 ^ 309 * d.den ≤ d.num := by
  have hdigits : 10 ^ (decimalLength d.coeff - 1) ≤ d.coeff := by
    rcases Nat.lt_or_ge 1 (decimalLength d.coeff) with hlong | hshort
    · rw [← Nat.not_lt, ← Nat.length_toDigits_le_iff (by omega) (by omega)]
      exact Nat.not_le.2 (Nat.sub_lt (by omega) (by omega))
    · rw [show decimalLength d.coeff - 1 = 0 by omega, Nat.pow_zero]
      omega
  calc 10 ^ 309 * d.den
      = 10 ^ (309 + (-d.exponent).toNat) := by rw [den, Nat.pow_add]
    _ ≤ 10 ^ (decimalLength d.coeff - 1 + d.exponent.toNat) :=
      Nat.pow_le_pow_right (by omega) (by omega)
    _ = 10 ^ (decimalLength d.coeff - 1) * 10 ^ d.exponent.toNat := Nat.pow_add 10 _ _
    _ ≤ d.num := Nat.mul_le_mul_right _ hdigits

end Decimal

namespace Real64

theorem roundUnits_eq_zero {n d : ℕ} (h : 2 * n < d) : roundUnits n d = 0 := by
  have hdiv : n / d = 0 := Nat.div_eq_of_lt (by omega)
  have hround : divNearest n d = 0 := divNearest_eq (by omega) (by omega) (by omega) (by omega)
  simp [roundUnits, hdiv, excess, hround]

theorem roundUnits_eq_infinity {n d : ℕ} (hd : 0 < d) (h : 2 ^ (53 + 2046) * d ≤ n) :
    roundUnits n d = infinityMagnitude := by
  have hexcess : ¬ excess (n / d) ≤ 2046 := by
    rw [excess_le_iff, Nat.not_lt]
    exact (Nat.le_div_iff_mul_le hd).2 h
  refine Nat.min_eq_left ?_
  have : 2047 * 2 ^ 52 ≤ excess (n / d) * 2 ^ 52 := Nat.mul_le_mul_right _ (by omega)
  exact this.trans (Nat.le_add_right _ _)

/-- The bounds on the leading digit change nothing. -/
theorem ofDecimal_eq_ofRatio (d : Decimal) : ofDecimal d = ofRatio d.negative d.num d.den := by
  unfold ofDecimal ofRatio
  simp only
  split_ifs with hsmall hlarge hwhole
  · rw [roundUnits_eq_zero]
    rcases hsmall with hzero | htop
    · have hnum : d.num = 0 := by rw [Decimal.num, hzero, Nat.zero_mul]
      have := d.den_pos
      rw [hnum]
      generalize 2 ^ 1074 = unit
      omega
    · calc 2 * (d.num * 2 ^ 1074) = d.num * (2 * 2 ^ 1074) := by ring
        _ ≤ d.num * 10 ^ 324 := Nat.mul_le_mul_left _ (by decide +kernel)
        _ < d.den := Decimal.num_lt_of_top htop
  · rw [roundUnits_eq_infinity d.den_pos, infinity]
    calc 2 ^ (53 + 2046) * d.den ≤ 2 ^ 1074 * 10 ^ 309 * d.den :=
          Nat.mul_le_mul_right _ (by decide +kernel)
      _ = 10 ^ 309 * d.den * 2 ^ 1074 := by ring
      _ ≤ d.num * 2 ^ 1074 :=
        Nat.mul_le_mul_right _ (Decimal.le_num_of_top (fun h => hsmall (Or.inl h)) hlarge)
  · rw [Decimal.num, Decimal.den, show (-d.exponent).toNat = 0 by omega, Nat.pow_zero]
  · rw [Decimal.num, Decimal.den, show d.exponent.toNat = 0 by omega, Nat.pow_zero, Nat.mul_one]

theorem exists_significand {x : Real64} (hx : x.isFinite) :
    ∃ s k, x.units = k * 2 ^ s ∧ excess (k * 2 ^ s) = s ∧ s * 2 ^ 52 + k < infinityMagnitude ∧
      x = ofMagnitude x.isNegative (s * 2 ^ 52 + k) := by
  obtain ⟨bits⟩ := x
  have hbits : bits.toNat < 2 ^ 64 := bits.toNat_lt
  have hfinite : bits.toNat / 2 ^ 52 % 2 ^ 11 ≠ 2047 := by
    simpa [isFinite, exponentField] using hx
  have hword : ∀ m, (if 2 ^ 63 ≤ bits.toNat then 2 ^ 63 + m else m) = bits.toNat →
      (⟨bits⟩ : Real64) = ofMagnitude (isNegative ⟨bits⟩) m := by
    intro m hm
    simp only [ofMagnitude, isNegative, decide_eq_true_eq, hm, UInt64.ofNat_toNat]
  by_cases he : bits.toNat / 2 ^ 52 % 2 ^ 11 = 0
  · refine ⟨0, bits.toNat % 2 ^ 52, ?_, ?_, ?_, hword _ ?_⟩
    · simp [units, exponentField, fractionField, he]
    · rw [← Nat.le_zero, excess_le_iff]
      omega
    · unfold infinityMagnitude
      omega
    · split <;> omega
  · refine ⟨bits.toNat / 2 ^ 52 % 2 ^ 11 - 1, 2 ^ 52 + bits.toNat % 2 ^ 52, ?_, ?_, ?_,
      hword _ ?_⟩
    · simp [units, exponentField, fractionField, he]
    · have hsum : bits.toNat % 2 ^ 52 < 2 ^ 52 := Nat.mod_lt _ (by omega)
      generalize bits.toNat % 2 ^ 52 = f at hsum ⊢
      generalize bits.toNat / 2 ^ 52 % 2 ^ 11 - 1 = s
      refine Nat.le_antisymm ((excess_le_iff _ _).2 ?_) ?_
      · rw [Nat.pow_add]
        exact Nat.mul_lt_mul_of_pos_right (by omega) (Nat.two_pow_pos s)
      · rcases s with _ | s
        · exact Nat.zero_le _
        · rw [Nat.succ_le_iff, ← Nat.not_le, excess_le_iff, Nat.not_lt,
            show 53 + s = 52 + (s + 1) by omega, Nat.pow_add]
          exact Nat.mul_le_mul_right _ (Nat.le_add_right _ _)
    · unfold infinityMagnitude
      omega
    · split <;> omega

theorem Basin.contains_mul_iff {b : Basin} {n d c : ℕ} (hc : 0 < c) :
    b.Contains (n * c) (d * c) ↔ b.Contains n d := by
  have hle (m m' : ℕ) : m * c ≤ m' * c ↔ m ≤ m' := Nat.mul_le_mul_right_iff hc
  have hlt (m m' : ℕ) : m * c < m' * c ↔ m < m' := Nat.mul_lt_mul_right hc
  simp only [contains_iff, ← Nat.mul_assoc, hle, hlt]

theorem Basin.Contains.of_ratio_eq {b : Basin} {n d n' d' : ℕ} (h : b.Contains n d) (hd : 0 < d)
    (hd' : 0 < d') (heq : n * d' = n' * d) : b.Contains n' d' := by
  rw [← Basin.contains_mul_iff hd, ← heq, Nat.mul_comm d' d, Basin.contains_mul_iff hd']
  exact h

theorem ofDecimal_of_contains {x : Real64} (hx : x.isFinite) {d : Decimal}
    (hd : d.negative = x.isNegative)
    (h : (basin x.units).Contains d.quarters d.den) : ofDecimal d = x := by
  obtain ⟨s, k, hunits, hexcess, hfinite, hbits⟩ := exists_significand hx
  rw [hunits] at h
  rw [ofDecimal_eq_ofRatio, ofRatio, roundUnits_eq d.den_pos hexcess h,
    Nat.min_eq_right hfinite.le, hd, ← hbits]

section

variable {tie : Tie} {u : ℕ} {b : Basin} {place c : ℕ}

theorem holds_of_gridPoint (h : gridPoint? tie u b place = some c) :
    b.holds (c * gridStep place) := by
  unfold gridPoint? at h
  simp only at h
  generalize gridStep place = step at h ⊢
  generalize 4 * u * quarterScale = v at h
  generalize v / step = q at h
  split at h
  · simp at h
  · next hq _ =>
    obtain rfl := Option.some.inj h
    exact hq
  · next _ hq =>
    obtain rfl := Option.some.inj h
    exact hq
  · next hq hq' =>
    have hc : c = q ∨ c = q + 1 := by
      split_ifs at h
      · exact Or.inl (Option.some.inj h).symm
      · exact Or.inr (Option.some.inj h).symm
      · cases tie with
        | toEven => exact Or.inl (Option.some.inj h).symm
        | away => exact Or.inr (Option.some.inj h).symm
      · cases tie <;> exact Or.inr (Option.some.inj h).symm
    rcases hc with rfl | rfl
    · exact hq
    · exact hq'

theorem low_lt (hu : u ≠ 0) : (basin u).low < 4 * u := by
  have := Nat.two_pow_pos (excess u)
  simp only [basin]
  split <;> omega

theorem low_pos (hu : u ≠ 0) : 0 < (basin u).low := by
  have hpow := Nat.two_pow_pos (excess u)
  simp only [basin]
  rcases Nat.eq_zero_or_pos (excess u) with hexcess | hexcess
  · simp only [hexcess, ne_eq, not_true_eq_false, false_and, if_false]
    omega
  · have := le_of_excess_eq_succ (u := u) (s := excess u - 1) (by omega)
    rw [show 53 + (excess u - 1) = 52 + excess u by omega, Nat.pow_add] at this
    split <;> omega

theorem lt_high (u : ℕ) : 4 * u < (basin u).high := by
  have := Nat.two_pow_pos (excess u)
  simp only [basin]
  omega

/-- The finest grid is finer than any basin: the step below the number reads back. -/
theorem isSome_gridPoint_zero (tie : Tie) (hu : u ≠ 0) : (gridPoint? tie u (basin u) 0).isSome := by
  have hstep : gridStep 0 < quarterScale := by decide +kernel
  have hpos : 0 < gridStep 0 := by decide +kernel
  have hlower : (basin u).holds (4 * u * quarterScale / gridStep 0 * gridStep 0) := by
    have hdiv := Nat.div_add_mod (4 * u * quarterScale) (gridStep 0)
    have hmod := Nat.mod_lt (4 * u * quarterScale) hpos
    rw [Nat.mul_comm] at hdiv
    generalize 4 * u * quarterScale / gridStep 0 * gridStep 0 = point at *
    have hlow : (basin u).low * quarterScale + quarterScale ≤ 4 * u * quarterScale := by
      rw [← Nat.succ_mul]
      exact Nat.mul_le_mul_right _ (low_lt hu)
    have hhigh : 4 * u * quarterScale + quarterScale ≤ (basin u).high * quarterScale := by
      rw [← Nat.succ_mul]
      exact Nat.mul_le_mul_right _ (lt_high u)
    unfold Basin.holds
    split <;> simp <;> omega
  unfold gridPoint?
  simp only [hlower]
  split
  · simp_all
  · rfl
  · simp_all
  · split_ifs
    · rfl
    · rfl
    · cases tie <;> rfl
    · cases tie <;> rfl

theorem holds_coarsest (tie : Tie) (hu : u ≠ 0) (place : ℕ) :
    (basin u).holds ((coarsest tie u (basin u) place).1 *
      gridStep (coarsest tie u (basin u) place).2) := by
  induction place with
  | zero =>
    obtain ⟨c, hc⟩ := Option.isSome_iff_exists.1 (isSome_gridPoint_zero tie hu)
    simpa [coarsest, hc] using holds_of_gridPoint hc
  | succ place ih =>
    unfold coarsest
    split
    · next c hc => exact holds_of_gridPoint hc
    · exact ih

theorem shortest_eq (tie : Tie) {x : Real64} (hx : x.units ≠ 0) :
    x.shortest tie = ⟨x.isNegative, (coarsest tie x.units (basin x.units) (topPlace x.units)).1,
      (coarsest tie x.units (basin x.units) (topPlace x.units)).2 - 324⟩ := by
  unfold shortest
  generalize coarsest tie x.units (basin x.units) (topPlace x.units) = pick
  obtain ⟨c, place⟩ := pick
  rw [if_neg hx]

theorem contains_shortest (tie : Tie) {x : Real64} (hx : x.units ≠ 0) :
    (basin x.units).Contains (x.shortest tie).quarters (x.shortest tie).den := by
  have hholds := holds_coarsest tie hx (topPlace x.units)
  rw [shortest_eq tie hx]
  generalize coarsest tie x.units (basin x.units) (topPlace x.units) = pick at hholds ⊢
  obtain ⟨c, place⟩ := pick
  have hscale : 0 < quarterScale := by decide +kernel
  refine (Basin.contains_of_holds hholds).of_ratio_eq hscale (Decimal.den_pos _) ?_
  have hten : 10 ^ place * 10 ^ (-((place : ℤ) - 324)).toNat =
      10 ^ ((place : ℤ) - 324).toNat * 10 ^ 324 := by
    rw [← Nat.pow_add, ← Nat.pow_add 10 _ 324]
    congr 1
    omega
  rw [Decimal.quarters_mul]
  calc c * (10 ^ place * 2 ^ 1076) * 10 ^ (-((place : ℤ) - 324)).toNat
      = c * (10 ^ place * 10 ^ (-((place : ℤ) - 324)).toNat) * 2 ^ 1076 := by
        generalize 2 ^ 1076 = quarter
        ring
    _ = c * 10 ^ ((place : ℤ) - 324).toNat * 10 ^ 324 * 2 ^ 1076 := by
        rw [hten, ← Nat.mul_assoc c]

theorem shortest_of_units_eq_zero (tie : Tie) {x : Real64} (hx : x.units = 0) :
    x.shortest tie = ⟨x.isNegative, 0, 0⟩ := by
  unfold shortest
  rw [if_pos hx]

theorem negative_shortest (tie : Tie) (x : Real64) :
    (x.shortest tie).negative = x.isNegative := by
  by_cases hx : x.units = 0
  · rw [shortest_of_units_eq_zero tie hx]
  · rw [shortest_eq tie hx]

theorem coeff_shortest_ne_zero (tie : Tie) {x : Real64} (hx : x.units ≠ 0) :
    (x.shortest tie).coeff ≠ 0 := by
  intro hzero
  have hnum : (x.shortest tie).num = 0 := by rw [Decimal.num, hzero, Nat.zero_mul]
  have hlow := (contains_shortest tie hx).low
  rw [Decimal.quarters_eq_zero hnum, Nat.le_zero, Nat.mul_eq_zero] at hlow
  exact hlow.elim (low_pos hx).ne' (Decimal.den_pos _).ne'

theorem ofDecimal_of_same {x : Real64} (hx : x.isFinite) {tie : Tie} {d : Decimal}
    (h : d.Same (x.shortest tie)) : ofDecimal d = x := by
  refine ofDecimal_of_contains hx (h.negative.trans (negative_shortest tie x)) ?_
  by_cases hunits : x.units = 0
  · have hnum : d.num = 0 := by
      have := h.ratio
      rw [shortest_of_units_eq_zero tie hunits] at this
      simpa [Decimal.num, Decimal.den] using this
    rw [hunits, Decimal.quarters_eq_zero hnum]
    exact ⟨by simp [basin, excess], Nat.zero_le _, Or.inl rfl⟩
  · refine (contains_shortest tie hunits).of_ratio_eq (Decimal.den_pos _) d.den_pos ?_
    rw [Decimal.quarters_mul, Decimal.quarters_mul, h.ratio]

end

end Real64
end Telemetry
