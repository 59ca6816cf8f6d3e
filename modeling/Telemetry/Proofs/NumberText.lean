import Telemetry.Proofs.Numeral

/-! The numbers that are written. Whichever notation a style takes for a finite number, its text is a
numeral of the value of the shortest decimal: the zeros before the point and behind it change the
digits and the exponent, and not the value. -/

namespace Telemetry

/-- Zeros at the end of the digits are a matter of the exponent. -/
theorem Decimal.same_shift {negative : Bool} {c k : ℕ} {e e' : ℤ} (h : e' = e - k) :
    Decimal.Same ⟨negative, c * 10 ^ k, e'⟩ ⟨negative, c, e⟩ where
  negative := rfl
  ratio := by
    subst h
    simp only [num, den]
    rw [Nat.mul_assoc, Nat.mul_assoc, Nat.mul_assoc, ← Nat.pow_add, ← Nat.pow_add, ← Nat.pow_add]
    congr 2
    omega

namespace Json

open Numeral (Whole)
open Real64 (zeros)

theorem isDigit_toDigits (n : ℕ) : ∀ c ∈ Nat.toDigits 10 n, c.isDigit :=
  fun _ hc => Nat.isDigit_of_mem_toDigits (by omega) (by omega) hc

theorem isDigit_zeros (n : ℕ) : ∀ c ∈ zeros n, c.isDigit := by
  intro c hc
  rw [List.eq_of_mem_replicate hc]
  rfl

theorem head_toDigits {n : ℕ} (hn : n ≠ 0) : (Nat.toDigits 10 n).head? ≠ some '0' := by
  induction n using Nat.strong_induction_on with
  | _ n ih =>
    rw [Nat.toDigits_eq_if (by omega)]
    split
    · simp [Nat.digitChar_eq_zero, hn]
    · rw [List.head?_append_of_ne_nil _ Nat.toDigits_ne_nil]
      exact ih (n / 10) (by omega) (by omega)

theorem whole_of_head {cs : List Char} (hcs : cs ≠ []) (hhead : cs.head? ≠ some '0')
    (hdigits : ∀ c ∈ cs, c.isDigit) : Whole cs :=
  ⟨hcs, hdigits, fun h => absurd h hhead⟩

theorem whole_toDigits_zeros {n k : ℕ} (h : n = 0 → k = 0) :
    Whole (Nat.toDigits 10 n ++ zeros k) := by
  by_cases hn : n = 0
  · subst hn
    rw [h rfl]
    exact ⟨by simp, isDigit_toDigits 0, fun _ => rfl⟩
  · refine whole_of_head (by simp) ?_ fun c hc =>
      (List.mem_append.1 hc).elim (isDigit_toDigits n c) (isDigit_zeros k c)
    rw [List.head?_append_of_ne_nil _ Nat.toDigits_ne_nil]
    exact head_toDigits hn

theorem Numeral.WellFormed.mem_text {n : Numeral} (h : n.WellFormed) {c : Char} (hc : c ∈ n.text) :
    c.isDigit ∨ c ∈ ['-', '+', '.', 'e'] := by
  have hscale (p : ℤ) (hc : c ∈ Numeral.scaleText p) : c.isDigit ∨ c ∈ ['-', '+', '.', 'e'] := by
    rcases List.mem_append.1 hc with hc | hc
    · have hmark : c = 'e' ∨ c = '-' ∨ c = '+' := by
        split at hc
        · exact (List.mem_pair.1 hc).imp_right Or.inl
        · exact (List.mem_pair.1 hc).imp_right Or.inr
      rcases hmark with rfl | rfl | rfl <;> simp
    · exact Or.inl (isDigit_toDigits _ c hc)
  simp only [Numeral.text, Numeral.tail, List.mem_append] at hc
  rcases hc with (hc | hc) | hc | hc
  · split at hc
    · obtain rfl := List.mem_singleton.1 hc
      simp
    · exact absurd hc List.not_mem_nil
  · exact Or.inl (h.whole.digits c hc)
  · split at hc
    · exact absurd hc List.not_mem_nil
    · rcases List.mem_cons.1 hc with rfl | hc
      · simp
      · exact Or.inl (h.fraction c hc)
  · rcases hp : n.power with _ | p
    · simp [hp] at hc
    · rw [hp] at hc
      exact hscale p hc

/-- A text that is a numeral of the value of a decimal, but for the sign. -/
def Spells (text : List Char) (d : Decimal) : Prop :=
  ∃ n : Numeral, n.WellFormed ∧ n.negative = d.negative ∧ n.number.decimal.Same d ∧
    n.whole ++ n.tail = text

theorem spells_of_digits {d : Decimal} {whole : List Char} (fraction : List Char)
    (power : Option ℤ) (k : ℕ)
    (hwhole : Whole whole) (hfraction : ∀ c ∈ fraction, c.isDigit)
    (hdigits : Nat.ofDigitChars 10 (whole ++ fraction) 0 = d.coeff * 10 ^ k)
    (hexponent : power.getD 0 - fraction.length = d.exponent - k) :
    Spells (whole ++ ((if fraction = [] then [] else '.' :: fraction) ++
      power.elim [] Numeral.scaleText)) d := by
  refine ⟨⟨d.negative, whole, fraction, power⟩, ⟨hwhole, hfraction⟩, rfl, ?_, rfl⟩
  rw [Numeral.number, hdigits]
  exact Decimal.same_shift hexponent

variable {d : Decimal}

/-- A whole number: zeros behind the digits, and one behind the point if there is a point. -/
theorem spells_whole (pointed : Bool) (hd : d.coeff = 0 → d.exponent = 0)
    (hexponent : 0 ≤ d.exponent) :
    Spells (Nat.toDigits 10 d.coeff ++ zeros d.exponent.toNat ++
      (if pointed then ".0".toList else [])) d := by
  have hwhole : Whole (Nat.toDigits 10 d.coeff ++ zeros d.exponent.toNat) :=
    whole_toDigits_zeros fun h => by rw [hd h]; rfl
  have hvalue (k : ℕ) : Nat.ofDigitChars 10
      (Nat.toDigits 10 d.coeff ++ zeros d.exponent.toNat ++ zeros k) 0 =
        d.coeff * 10 ^ (d.exponent.toNat + k) := by
    simp only [zeros, Nat.ofDigitChars_append, Nat.ofDigitChars_ten_toDigits,
      Nat.ofDigitChars_replicate_zero]
    ring
  cases pointed with
  | true =>
    have hplaces : (none : Option ℤ).getD 0 - (zeros 1).length =
        d.exponent - (d.exponent.toNat + 1 : ℕ) := by
      rw [zeros, List.length_replicate, Option.getD_none]
      omega
    exact spells_of_digits (zeros 1) none _ hwhole (isDigit_zeros 1) (hvalue 1) hplaces
  | false =>
    have hplaces : (none : Option ℤ).getD 0 - (zeros 0).length =
        d.exponent - (d.exponent.toNat + 0 : ℕ) := by
      rw [zeros, List.length_replicate, Option.getD_none]
      omega
    exact spells_of_digits (zeros 0) none _ hwhole (isDigit_zeros 0) (hvalue 0) hplaces

theorem spells_pointed (hd : d.coeff = 0 → d.exponent = 0) {p : ℕ} (hp : 0 < p)
    (hpoint : d.exponent + (Nat.toDigits 10 d.coeff).length = p) (hexponent : d.exponent < 0) :
    Spells ((Nat.toDigits 10 d.coeff).take p ++ '.' :: (Nat.toDigits 10 d.coeff).drop p) d := by
  have hcoeff : d.coeff ≠ 0 := fun h => by
    rw [hd h] at hexponent
    omega
  have hvalue : Nat.ofDigitChars 10 (Nat.toDigits 10 d.coeff) 0 = d.coeff :=
    Nat.ofDigitChars_ten_toDigits
  have hhead := head_toDigits hcoeff
  have hdigits := isDigit_toDigits d.coeff
  generalize Nat.toDigits 10 d.coeff = digits at hpoint hvalue hhead hdigits ⊢
  have hdrop : digits.drop p ≠ [] := by
    rw [ne_eq, List.drop_eq_nil_iff]
    omega
  have hwhole : Whole (digits.take p) := by
    refine whole_of_head ?_ ?_ fun c hc => hdigits c (List.mem_of_mem_take hc)
    · rw [ne_eq, List.take_eq_nil_iff]
      rintro (h | h)
      · omega
      · simp [h] at hdrop
    · rwa [List.head?_take, if_neg hp.ne']
  have hspells := spells_of_digits (d := d) (digits.drop p) none 0 hwhole
    (fun c hc => hdigits c (List.mem_of_mem_drop hc))
    (by rw [List.take_append_drop, hvalue, Nat.pow_zero, Nat.mul_one])
    (by rw [List.length_drop, Option.getD_none]; omega)
  rwa [if_neg hdrop, Option.elim_none, List.append_nil] at hspells

theorem spells_small (hpoint : d.exponent + (Nat.toDigits 10 d.coeff).length ≤ 0) :
    Spells ("0.".toList ++ zeros (-(d.exponent + (Nat.toDigits 10 d.coeff).length)).toNat ++
      Nat.toDigits 10 d.coeff) d := by
  have hvalue : Nat.ofDigitChars 10 (Nat.toDigits 10 d.coeff) 0 = d.coeff :=
    Nat.ofDigitChars_ten_toDigits
  have hdigits := isDigit_toDigits d.coeff
  have hne : Nat.toDigits 10 d.coeff ≠ [] := Nat.toDigits_ne_nil
  generalize Nat.toDigits 10 d.coeff = digits at hpoint hvalue hdigits hne ⊢
  generalize hk : (-(d.exponent + digits.length)).toNat = k
  have hwhole : Whole ['0'] := ⟨by simp, isDigit_zeros 1, fun _ => rfl⟩
  have hspells := spells_of_digits (d := d) (zeros k ++ digits) none 0 hwhole
    (fun c hc => (List.mem_append.1 hc).elim (isDigit_zeros k c) (hdigits c))
    (by
      rw [Nat.ofDigitChars_append, Nat.ofDigitChars_append, zeros, Nat.ofDigitChars_replicate_zero]
      simpa [Nat.ofDigitChars_cons] using hvalue)
    (by rw [zeros, List.length_append, List.length_replicate, Option.getD_none]; omega)
  rw [if_neg (by simp [hne]), Option.elim_none, List.append_nil] at hspells
  simpa using hspells

theorem spells_positional (style : Real64.NumberStyle) (hd : d.coeff = 0 → d.exponent = 0) :
    Spells (Real64.positionalText style (Nat.toDigits 10 d.coeff) d.exponent) d := by
  unfold Real64.positionalText
  by_cases hwhole : 0 ≤ d.exponent
  · simp only [hwhole, if_true]
    exact spells_whole style.pointed hd hwhole
  · simp only [hwhole, if_false]
    split
    · exact spells_pointed hd (by omega) (by omega) (by omega)
    · exact spells_small (by omega)

theorem spells_scientific (d : Decimal) :
    Spells (Real64.scientificText (Nat.toDigits 10 d.coeff) d.exponent) d := by
  have hvalue : Nat.ofDigitChars 10 (Nat.toDigits 10 d.coeff) 0 = d.coeff :=
    Nat.ofDigitChars_ten_toDigits
  have hdigits := isDigit_toDigits d.coeff
  have hne : Nat.toDigits 10 d.coeff ≠ [] := Nat.toDigits_ne_nil
  generalize Nat.toDigits 10 d.coeff = digits at hvalue hdigits hne ⊢
  obtain ⟨c, cs, rfl⟩ := List.exists_cons_of_ne_nil hne
  have hwhole : Whole [c] := ⟨by simp, by simpa using hdigits c (by simp), by simp⟩
  have hspells := spells_of_digits (d := d) cs (some (d.exponent + cs.length)) 0
    hwhole (fun c hc => hdigits c (by simp [hc])) (by simpa using hvalue) (by simp)
  have htext : Real64.scientificText (c :: cs) d.exponent = [c] ++
      ((if cs = [] then [] else '.' :: cs) ++ Numeral.scaleText (d.exponent + cs.length)) := by
    have hexponent : d.exponent + ((c :: cs).length : ℤ) - 1 = d.exponent + cs.length := by
      rw [List.length_cons]
      omega
    rw [Real64.scientificText, hexponent, Numeral.scaleText]
    cases cs <;> simp
  rwa [htext]

theorem exists_numeral (style : Real64.NumberStyle) (x : Real64) :
    ∃ n : Numeral, n.WellFormed ∧ n.text = Real64.finiteText style x ∧
      n.number.decimal.Same (x.shortest style.tie) := by
  have hzero : (x.shortest style.tie).coeff = 0 → (x.shortest style.tie).exponent = 0 := by
    intro hcoeff
    have hunits : x.units = 0 := by
      by_contra h
      exact Real64.coeff_shortest_ne_zero style.tie h hcoeff
    rw [Real64.shortest_of_units_eq_zero style.tie hunits]
  unfold Real64.finiteText
  generalize x.shortest style.tie = d at hzero ⊢
  have hbody : Spells (if style.positional (d.exponent + (Nat.toDigits 10 d.coeff).length) then
      Real64.positionalText style (Nat.toDigits 10 d.coeff) d.exponent
      else Real64.scientificText (Nat.toDigits 10 d.coeff) d.exponent) d := by
    split
    · exact spells_positional style hzero
    · exact spells_scientific d
  obtain ⟨n, hn, hnegative, hsame, htext⟩ := hbody
  refine ⟨n, hn, ?_, hsame⟩
  simp only [← htext, Numeral.text, hnegative]
  split <;> simp

/-- A finite number that is written reads back as itself, zero with its sign. -/
theorem exists_numeral_real (style : Real64.NumberStyle) {x : Real64} (hx : x.isFinite) :
    ∃ n : Numeral, n.WellFormed ∧ n.text = Real64.finiteText style x ∧ n.number.real? = some x := by
  obtain ⟨n, hn, htext, hsame⟩ := exists_numeral style x
  refine ⟨n, hn, htext, ?_⟩
  rw [Number.real?, Real64.ofDecimal_of_same hx hsame]
  simp [hx]

theorem utf8_ofList {cs : List Char} (h : ∀ c ∈ cs, c.toNat < 128) :
    utf8 (String.ofList cs) = cs.map Char.toUInt8 := by
  rw [utf8_eq_flatMap, String.toList_ofList]
  induction cs with
  | nil => rfl
  | cons c cs ih =>
    have hc : c.toNat < 128 := h c (by simp)
    rw [List.flatMap_cons, String.utf8EncodeChar.eq_1, ← Char.toNat, if_pos (by omega),
      List.map_cons, ih fun d hd => h d (by simp [hd])]
    rfl

theorem exists_numeral_int (i : ℤ) :
    ∃ n : Numeral, n.WellFormed ∧ n.text.map Char.toUInt8 = writeInt i ∧ n.number.int? = some i := by
  have hwhole (n : ℕ) : Whole (Nat.toDigits 10 n) := by
    simpa [zeros] using whole_toDigits_zeros (n := n) (k := 0) fun _ => rfl
  have hascii (n : ℕ) : ∀ c ∈ Nat.toDigits 10 n, c.toNat < 128 := fun c hc => by
    obtain ⟨d, hd, rfl⟩ := exists_digitChar (isDigit_toDigits _ c hc)
    rw [Nat.toNat_digitChar_of_lt_ten hd]
    omega
  rw [writeInt, Int.toString_eq_repr, Int.repr_eq_if]
  split_ifs with hi
  · refine ⟨⟨false, Nat.toDigits 10 i.toNat, [], none⟩, ⟨hwhole _, by simp⟩, ?_, ?_⟩
    · rw [Nat.repr_eq_ofList_toDigits, utf8_ofList (hascii _)]
      simp [Numeral.text, Numeral.tail]
    · simp [Numeral.number, Number.int?, hi]
  · refine ⟨⟨true, Nat.toDigits 10 (-i).toNat, [], none⟩, ⟨hwhole _, by simp⟩, ?_, ?_⟩
    · have htext : "-" ++ (-i).toNat.repr = String.ofList ('-' :: Nat.toDigits 10 (-i).toNat) := by
        rw [Nat.repr_eq_ofList_toDigits]
        exact (@String.ofList_append ['-'] _).symm
      rw [htext, utf8_ofList (by simpa using hascii _)]
      simp [Numeral.text, Numeral.tail]
    · simp [Numeral.number, Number.int?]
      omega

end Json
end Telemetry
