import Telemetry.Proofs.Shortest

/-! How large the numbers are that ratios round to. A ratio below a power of two rounds to a number
of no more than that power, and one above it to a number of no less, so the products and quotients of
numbers that are not too far from one are finite. -/

namespace Telemetry.Real64

variable {n d s m : ℕ}

theorem divNearest_le (n d : ℕ) : divNearest n d ≤ n / d + 1 := by
  unfold divNearest
  simp only
  split_ifs <;> omega

theorem le_divNearest (n d : ℕ) : n / d ≤ divNearest n d := by
  unfold divNearest
  simp only
  split_ifs <;> omega

theorem roundUnits_le (hd : 0 < d) (h : n < 2 ^ (53 + s) * d) : roundUnits n d ≤ (s + 2) * 2 ^ 52 := by
  have hs : excess (n / d) ≤ s := (excess_le_iff _ _).2 ((Nat.div_lt_iff_lt_mul hd).2 h)
  have hbelow : n / (d * 2 ^ excess (n / d)) < 2 ^ 53 := by
    rw [← Nat.div_div_eq_div_mul, Nat.div_lt_iff_lt_mul (Nat.two_pow_pos _), ← Nat.pow_add]
    exact (excess_le_iff _ _).1 le_rfl
  have hround := divNearest_le n (d * 2 ^ excess (n / d))
  refine (Nat.min_le_right _ _).trans ?_
  generalize excess (n / d) = e at *
  omega

theorem le_roundUnits (hd : 0 < d) (hs : s < 2047) (h : 2 ^ (52 + s) * d ≤ n) :
    (s + 1) * 2 ^ 52 ≤ roundUnits n d := by
  have hu : 2 ^ (52 + s) ≤ n / d := (Nat.le_div_iff_mul_le hd).2 h
  have habove : 2 ^ (52 + excess (n / d)) ≤ n / d := by
    rcases he : excess (n / d) with _ | e
    · exact (Nat.pow_le_pow_right (by omega) (by omega)).trans hu
    · rw [show 52 + (e + 1) = 53 + e by omega]
      exact le_of_excess_eq_succ he
  have hle : s ≤ excess (n / d) := by
    rcases s with _ | s
    · exact Nat.zero_le _
    · rw [Nat.succ_le_iff, ← Nat.not_le, excess_le_iff, Nat.not_lt, show 53 + s = 52 + (s + 1) by omega]
      exact hu
  have hsignificand : 2 ^ 52 ≤ n / (d * 2 ^ excess (n / d)) := by
    rw [← Nat.div_div_eq_div_mul, Nat.le_div_iff_mul_le (Nat.two_pow_pos _), ← Nat.pow_add]
    exact habove
  have hround := le_divNearest n (d * 2 ^ excess (n / d))
  refine Nat.le_min.2 ⟨?_, ?_⟩
  · unfold infinityMagnitude
    omega
  · generalize excess (n / d) = e at *
    omega

section

variable (negative : Bool)

theorem exponentField_ofMagnitude (hm : m < 2 ^ 63) :
    (ofMagnitude negative m).exponentField = m / 2 ^ 52 := by
  have hbits : (if negative then 2 ^ 63 + m else m) < 2 ^ 64 := by split <;> omega
  simp only [exponentField, ofMagnitude, UInt64.toNat_ofNat', Nat.mod_eq_of_lt hbits]
  split <;> omega

theorem isFinite_ofMagnitude (hm : m < infinityMagnitude) : (ofMagnitude negative m).isFinite := by
  unfold infinityMagnitude at hm
  rw [isFinite, exponentField_ofMagnitude negative (by omega), bne_iff_ne]
  omega

theorem units_ofMagnitude_lt (hs : s < 2044) (hm : m ≤ (s + 2) * 2 ^ 52) :
    (ofMagnitude negative m).units < 2 ^ (54 + s) := by
  have hfraction : (ofMagnitude negative m).fractionField < 2 ^ 52 := Nat.mod_lt _ (by omega)
  rw [units, exponentField_ofMagnitude negative (by omega)]
  split_ifs with hzero
  · exact hfraction.trans_le (Nat.pow_le_pow_right (by omega) (by omega))
  · calc (2 ^ 52 + (ofMagnitude negative m).fractionField) * 2 ^ (m / 2 ^ 52 - 1)
        < 2 ^ 53 * 2 ^ (m / 2 ^ 52 - 1) :=
          Nat.mul_lt_mul_of_pos_right (by omega) (Nat.two_pow_pos _)
      _ ≤ 2 ^ 53 * 2 ^ (s + 1) :=
          Nat.mul_le_mul_left _ (Nat.pow_le_pow_right (by omega) (by omega))
      _ = 2 ^ (54 + s) := by rw [← Nat.pow_add]; congr 1; omega

theorem le_units_ofMagnitude (hm : m < 2 ^ 63) (h : (s + 1) * 2 ^ 52 ≤ m) :
    2 ^ (52 + s) ≤ (ofMagnitude negative m).units := by
  rw [units, exponentField_ofMagnitude negative hm, if_neg (by omega), Nat.pow_add]
  exact Nat.mul_le_mul (Nat.le_add_right _ _) (Nat.pow_le_pow_right (by omega) (by omega))

theorem ofRatio_lt (hd : 0 < d) (hs : s < 2044) (h : n * 2 ^ 1074 < 2 ^ (53 + s) * d) :
    (ofRatio negative n d).isFinite ∧ (ofRatio negative n d).units < 2 ^ (54 + s) := by
  have hround := roundUnits_le hd h
  refine ⟨isFinite_ofMagnitude negative ?_, units_ofMagnitude_lt negative hs hround⟩
  unfold infinityMagnitude
  omega

end

section

variable {x y : Real64} {j k : ℕ}

theorem ofNat_lt (hk : k < 1023) (h : n < 2 ^ k) :
    (ofNat n).isFinite ∧ (ofNat n).units < 2 ^ (1075 + k) := by
  have hs : 1021 + k < 2044 := by omega
  have hexponent : 53 + (1021 + k) = k + 1074 := by omega
  have hbound : 54 + (1021 + k) = 1075 + k := by omega
  rw [← hbound]
  refine ofRatio_lt false Nat.one_pos hs ?_
  rw [Nat.mul_one, hexponent, Nat.pow_add]
  gcongr

theorem le_units_ofNat (h : 0 < n) : 2 ^ 1074 ≤ (ofNat n).units := by
  obtain ⟨s, hs⟩ : ∃ s, 52 + s = 1074 := ⟨1022, rfl⟩
  rw [← hs]
  refine le_units_ofMagnitude false ?_ (le_roundUnits Nat.one_pos (by omega) ?_)
  · exact (Nat.min_le_left _ _).trans_lt (by decide)
  · rw [← hs, Nat.mul_one]
    exact Nat.le_mul_of_pos_left _ h

theorem mul_lt (hs : s < 2044) (hjk : j + k = 1127 + s) (hx : x.units < 2 ^ j)
    (hy : y.units < 2 ^ k) : (x.mul y).isFinite ∧ (x.mul y).units < 2 ^ (54 + s) := by
  have hexponent : j + k + 1074 = 53 + s + 2148 := by omega
  refine ofRatio_lt _ (by positivity) hs ?_
  rw [← Nat.pow_add 2 (53 + s) 2148, ← hexponent, Nat.pow_add, Nat.pow_add]
  gcongr

theorem isFinite_div (hs : s < 2044) (hx : x.units < 2 ^ (53 + s))
    (hy : 2 ^ 1074 ≤ y.units) : (x.div y).isFinite := by
  have hpos : 0 < y.units := Nat.lt_of_lt_of_le (by positivity) hy
  exact (ofRatio_lt _ hpos hs (Nat.mul_lt_mul_of_lt_of_le hx hy hpos)).1

/-- A product of whole numbers over one that is not zero is finite, if they are not too large. -/
theorem isFinite_share {a b c : ℕ} (hjk : j + k < 1020) (ha : a < 2 ^ j) (hb : b < 2 ^ k)
    (hc : 0 < c) : (((ofNat a).mul (ofNat b)).div (ofNat c)).isFinite := by
  have hfactors : 1075 + j + (1075 + k) = 1127 + (1023 + j + k) := by omega
  have hproduct := (mul_lt (by omega) hfactors (ofNat_lt (by omega) ha).2
    (ofNat_lt (by omega) hb).2).2
  rw [show 54 + (1023 + j + k) = 53 + (1024 + j + k) by omega] at hproduct
  exact isFinite_div (by omega) hproduct (le_units_ofNat hc)

end

end Telemetry.Real64
