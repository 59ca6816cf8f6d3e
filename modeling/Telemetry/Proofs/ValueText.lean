import Telemetry.Proofs.NumberText
import Telemetry.Proofs.Merge

/-! Values read back. The reader of values takes every numeral as the decimal that it spells, so the
text of a finite gauge, which is a numeral of its shortest decimal, gives the gauge to the last bit,
and the text of a counter gives the counter. -/

namespace Telemetry

namespace Text

theorem digit?_of_isDigit {c : Char} (hc : c.isDigit) : digit? c = some (c.toNat - 48) := by
  obtain ⟨d, hd, rfl⟩ := Json.exists_digitChar hc
  interval_cases d <;> rfl

/-- What follows a run of digits: nothing that is a digit. -/
def Ends (rest : List Char) : Prop := ∀ c ∈ rest.head?, digit? c = none

theorem ends_nil : Ends [] := nofun

theorem digitRunFrom_append {ds rest : List Char} (hds : ∀ c ∈ ds, c.isDigit) (hrest : Ends rest)
    (count value : ℕ) : digitRunFrom digit? count value (ds ++ rest) =
      ⟨count + ds.length, Nat.ofDigitChars 10 ds value, rest⟩ := by
  induction ds generalizing count value with
  | nil =>
    rcases rest with _ | ⟨c, rest⟩
    · rfl
    · rw [List.nil_append, digitRunFrom, hrest c rfl]
      rfl
  | cons d ds ih =>
    rw [List.cons_append, digitRunFrom, digit?_of_isDigit (hds d (by simp))]
    simp only
    rw [ih (fun c hc => hds c (by simp [hc])), List.length_cons, Nat.add_assoc, Nat.add_comm 1]
    rfl

theorem digit?_eq_none {c : Char} (hc : c.isDigit = false) : digit? c = none := by
  rw [digit?, if_neg]
  rintro ⟨hlow, hhigh⟩
  simp only [Char.isDigit, Bool.and_eq_false_iff, decide_eq_false_iff_not] at hc
  exact hc.elim (· hlow) (· hhigh)

/-- A text starts with its digits, if only with none. -/
theorem exists_digits (cs : List Char) : ∃ ds rest, cs = ds ++ rest ∧ (∀ c ∈ ds, c.isDigit) ∧
    Ends rest := by
  refine ⟨cs.takeWhile Char.isDigit, cs.dropWhile Char.isDigit, List.takeWhile_append_dropWhile.symm,
    fun c => List.mem_takeWhile_imp, fun c hc => digit?_eq_none ?_⟩
  have hnot := List.head?_dropWhile_not Char.isDigit cs
  rwa [Option.mem_def.1 hc] at hnot

theorem natural?_digits {ds : List Char} (hds : ∀ c ∈ ds, c.isDigit) (hne : ds ≠ []) :
    natural? ds = some (Nat.ofDigitChars 10 ds 0) := by
  have hrun : digitRun ds = ⟨ds.length, Nat.ofDigitChars 10 ds 0, []⟩ := by
    simpa [digitRun] using digitRunFrom_append hds ends_nil 0 0
  rw [natural?, hrun]
  simp [hne]

theorem natural?_toDigits (n : ℕ) : natural? (Nat.toDigits 10 n) = some n := by
  rw [natural?_digits (Json.isDigit_toDigits n) Nat.toDigits_ne_nil, Nat.ofDigitChars_ten_toDigits]

end Text

namespace Real64

open Json (Numeral)

theorem exponent?_scale (p : ℤ) :
    exponent? ((if p < 0 then '-' else '+') :: Nat.toDigits 10 p.natAbs) = some p := by
  by_cases hp : p < 0
  · rw [if_pos hp, exponent?, Text.natural?_toDigits]
    show some (-(p.natAbs : ℤ)) = some p
    congr 1
    omega
  · rw [if_neg hp, exponent?, Text.natural?_toDigits]
    show some (p.natAbs : ℤ) = some p
    congr 1
    omega

theorem scaleText_eq (p : ℤ) : Numeral.scaleText p =
    'e' :: (if p < 0 then '-' else '+') :: Nat.toDigits 10 p.natAbs := by
  unfold Numeral.scaleText
  split_ifs <;> rfl

theorem ends_scale (power : Option ℤ) : Text.Ends (power.elim [] Numeral.scaleText) := by
  intro c hc
  rcases power with _ | p
  · cases hc
  · rw [Option.elim_some, scaleText_eq] at hc
    obtain rfl := Option.some.inj hc
    rfl

theorem magnitude?_numeral {n : Numeral} (h : n.WellFormed) :
    magnitude? n.negative (n.whole ++ n.tail) = some n.number.decimal := by
  obtain ⟨negative, whole, fraction, power⟩ := n
  obtain ⟨hwhole, hfraction⟩ := h
  have hcount : whole.length ≠ 0 := by simpa using hwhole.ne_nil
  by_cases hnone : fraction = []
  · subst hnone
    have hrun := Text.digitRunFrom_append hwhole.digits (ends_scale power) 0 0
    simp only [magnitude?, Numeral.tail, Text.digitRun, if_true, List.nil_append, hrun]
    rcases power with _ | p
    · simp [Numeral.number, hcount]
    · simp [Numeral.number, hcount, scaleText_eq, exponent?_scale]
  · have hpoint : Text.Ends ('.' :: (fraction ++ power.elim [] Numeral.scaleText)) :=
      fun c hc => Option.some.inj hc ▸ rfl
    have hrun := Text.digitRunFrom_append hwhole.digits hpoint 0 0
    have hrun' := Text.digitRunFrom_append hfraction (ends_scale power) 0
      (Nat.ofDigitChars 10 whole 0)
    simp only [magnitude?, Numeral.tail, Text.digitRun, if_neg hnone, List.cons_append, hrun, hrun']
    rcases power with _ | p
    · simp [Numeral.number, hcount, Nat.ofDigitChars_append]
    · simp [Numeral.number, hcount, Nat.ofDigitChars_append, scaleText_eq, exponent?_scale]

theorem unsigned?_digit {c : Char} (hc : c.isDigit) (negative : Bool) (cs : List Char) :
    unsigned? negative (c :: cs) = (magnitude? negative (c :: cs)).map ofDecimal := by
  have hfold : Text.fold (c :: cs) = c :: Text.fold cs := by
    obtain ⟨d, hd, rfl⟩ := Json.exists_digitChar hc
    interval_cases d <;> rfl
  have hname (word : List Char) (hword : ∀ d ∈ word.head?, d.isDigit = false) :
      Text.fold (c :: cs) ≠ word := by
    rintro rfl
    rw [hfold] at hword
    simp [hword c rfl] at hc
  have hinf := hname "inf".toList (fun d hd => Option.some.inj hd ▸ rfl)
  have hinfinity := hname "infinity".toList (fun d hd => Option.some.inj hd ▸ rfl)
  have hnan := hname "nan".toList (fun d hd => Option.some.inj hd ▸ rfl)
  simp only [unsigned?, hinf, hinfinity, hnan, or_self, if_false]

theorem parse?_numeral {n : Numeral} (h : n.WellFormed) :
    parse? n.text = some (ofDecimal n.number.decimal) := by
  obtain ⟨c, cs, hcs⟩ := List.exists_cons_of_ne_nil h.whole.ne_nil
  have hc : c.isDigit := h.whole.digits c (by simp [hcs])
  have hunsigned : unsigned? n.negative (n.whole ++ n.tail) = some (ofDecimal n.number.decimal) := by
    rw [hcs, List.cons_append, unsigned?_digit hc, ← List.cons_append, ← hcs, magnitude?_numeral h]
    rfl
  rcases hsign : n.negative with _ | _
  · have htext : n.text = c :: (cs ++ n.tail) := by simp [Numeral.text, hsign, hcs]
    have hparse : parse? (c :: (cs ++ n.tail)) = unsigned? false (c :: (cs ++ n.tail)) := by
      obtain ⟨d, hd, rfl⟩ := Json.exists_digitChar hc
      interval_cases d <;> rfl
    rw [htext, hparse, ← hsign, ← List.cons_append, ← hcs, hunsigned]
  · have htext : n.text = '-' :: (n.whole ++ n.tail) := by simp [Numeral.text, hsign]
    have hparse : parse? ('-' :: (n.whole ++ n.tail)) = unsigned? true (n.whole ++ n.tail) := rfl
    rw [htext, hparse, ← hsign, hunsigned]

theorem parse?_text {x : Real64} (hx : x.isFinite) : parse? x.text = some x := by
  obtain ⟨n, hn, htext, hsame⟩ := Json.exists_numeral plain x
  have hnan : x.isNaN = false := by simp [isNaN, hx]
  have hplain : x.text = finiteText plain x := by simp [text, hnan, hx]
  rw [hplain, ← htext, parse?_numeral hn, ofDecimal_of_same hx hsame]

end Real64

theorem Text.signed?_toString (n : Int64) : signed? (toString n.toInt).toList = some n := by
  have hself : int64? n.toInt = some n := int64?_eq_some_iff.2 rfl
  rw [Int.toString_eq_repr, Int.repr_eq_if]
  split_ifs with hn
  · have hdigits : (Nat.repr n.toInt.toNat).toList = Nat.toDigits 10 n.toInt.toNat := by simp
    obtain ⟨c, cs, hcs⟩ := List.exists_cons_of_ne_nil
      (Nat.toDigits_ne_nil (n := n.toInt.toNat) (b := 10))
    have hc : c.isDigit := Json.isDigit_toDigits n.toInt.toNat c (hcs ▸ List.mem_cons_self)
    have hsigned : signed? (c :: cs) = (natural? (c :: cs)).bind fun m => int64? m := by
      obtain ⟨d, hd, rfl⟩ := Json.exists_digitChar hc
      interval_cases d <;> rfl
    rw [hdigits, hcs, hsigned, ← hcs, natural?_toDigits, Option.bind_some, Int.toNat_of_nonneg hn,
      hself]
  · have htext : ("-" ++ (-n.toInt).toNat.repr).toList = '-' :: Nat.toDigits 10 (-n.toInt).toNat := by
      simp
    have hsigned (ds : List Char) : signed? ('-' :: ds) = (natural? ds).bind fun m => int64? (-m) := rfl
    have hvalue : -((-n.toInt).toNat : ℤ) = n.toInt := by omega
    rw [htext, hsigned, natural?_toDigits, Option.bind_some, hvalue, hself]

theorem Value.parse_text {v : Value} (hv : ∀ x, v = .gauge x → x.isFinite) :
    parse v.kind v.text = .ok v := by
  rcases v with x | n
  · have hx := hv x rfl
    simp only [parse, kind, text, String.toList_ofList, Real64.parse?_text hx, Option.filter_some, hx,
      if_true, Option.map_some]
  · simp only [parse, kind, text, Text.signed?_toString, Option.map_some]

end Telemetry
