import Telemetry.Proofs.RecordText
import Telemetry.Proofs.ValueText

/-! Values survive as text. The text of a gauge is plain digits, so it has no exponent at any size;
like the number in the record of the gauge it is a numeral of the shortest decimal, and both readers
take such a numeral as the gauge, to the last bit. -/

namespace Telemetry

namespace Real64

theorem mem_positionalText {digits : List Char} (hdigits : ∀ c ∈ digits, c.isDigit) {exponent : ℤ}
    {c : Char} (hc : c ∈ positionalText plain digits exponent) : c.isDigit ∨ c = '.' := by
  have hzero (n : ℕ) (hc : c ∈ zeros n) : c.isDigit := Json.isDigit_zeros n c hc
  simp only [positionalText, plain, Bool.false_eq_true, if_false, List.append_nil] at hc
  split_ifs at hc
  · exact Or.inl ((List.mem_append.1 hc).elim (hdigits c) (hzero _))
  · rcases List.mem_append.1 hc with hc | hc
    · exact Or.inl (hdigits c (List.mem_of_mem_take hc))
    · exact (List.mem_cons.1 hc).symm.imp_left fun hc => hdigits c (List.mem_of_mem_drop hc)
  · rcases List.mem_append.1 hc with hc | hc
    · rcases List.mem_append.1 hc with hc | hc
      · rcases List.mem_pair.1 hc with rfl | rfl
        · exact Or.inl rfl
        · exact Or.inr rfl
      · exact Or.inl (hzero _ hc)
    · exact Or.inl (hdigits c hc)

/-- The text of a finite number is digits, a sign and a point, and has no exponent. -/
theorem mem_text {x : Real64} (hx : x.isFinite) {c : Char} (hc : c ∈ x.text) :
    c.isDigit ∨ c = '.' ∨ c = '-' := by
  have hnan : x.isNaN = false := by simp [isNaN, hx]
  have hplain : x.text = finiteText plain x := by simp [text, hnan, hx]
  have hbody (hc : c ∈ positionalText plain (Nat.toDigits 10 (x.shortest plain.tie).coeff)
      (x.shortest plain.tie).exponent) : c.isDigit ∨ c = '.' ∨ c = '-' :=
    (mem_positionalText (Json.isDigit_toDigits _) hc).imp_right Or.inl
  have hpositional (p : ℤ) : plain.positional p = true := rfl
  rw [hplain, finiteText] at hc
  simp only [hpositional, if_true] at hc
  split_ifs at hc
  · exact (List.mem_cons.1 hc).elim (fun hc => Or.inr (Or.inr hc)) hbody
  · exact hbody hc

end Real64

namespace Json

theorem parse?_writeReal {x : Real64} (hx : x.isFinite) :
    ∃ n, parse? (writeReal x) = some (.number n) ∧ n.real? = some x := by
  obtain ⟨n, hn, htext, hreal⟩ := exists_numeral_real numberStyle hx
  refine ⟨n.number, ?_, hreal⟩
  rw [writeReal, if_pos hx, ← htext, parse?, scan_numeral hn]
  rfl

end Json

/-- The text of every value is read back as the value, zero with its sign, and the text of a gauge
has no exponent; so different values of a kind have different texts. In the record of a gauge the
number is read back as well, by itself and as a part of the record. -/
theorem Value.texts_are_lossless :
    (∀ x : Real64, x.isFinite →
      (∀ c ∈ (gauge x).text.toList, c.isDigit ∨ c = '.' ∨ c = '-') ∧
      parse .gauge (gauge x).text = .ok (gauge x) ∧
      (∃ n, Json.parse? (Json.writeReal x) = some (.number n) ∧ n.real? = some x) ∧
      ∀ name, Record.parse? (Record.write (.ofMetric ⟨name, gauge x⟩)) =
        some ⟨name, Kind.gauge.name, some x, none⟩) ∧
    (∀ x y : Real64, x.isFinite → y.isFinite → (gauge x).text = (gauge y).text → x = y) ∧
    ∀ n : Int64, parse .counter (counter n).text = .ok (counter n) := by
  have hgauge {x : Real64} (hx : x.isFinite) : parse .gauge (gauge x).text = .ok (gauge x) :=
    parse_text (v := gauge x) fun y hy => by rwa [← gauge.inj hy]
  refine ⟨fun x hx => ⟨fun c hc => ?_, hgauge hx, Json.parse?_writeReal hx, fun name => ?_⟩,
    fun x y hx hy htext => ?_, fun n => parse_text (v := counter n) nofun⟩
  · rw [text, String.toList_ofList] at hc
    exact Real64.mem_text hx hc
  · refine Record.parse_write fun y hy => ?_
    obtain rfl : x = y := Option.some.inj hy
    exact hx
  · have hread := hgauge hx
    rw [htext, hgauge hy] at hread
    exact (gauge.inj (Except.ok.inj hread)).symm

/-- Zero with a sign, the smallest number and the largest. -/
theorem Value.extremes_are_lossless :
    let least : Real64 := ⟨1⟩
    let greatest : Real64 := ⟨0x7fefffffffffffff⟩
    let zero : Real64 := .ofMagnitude true 0
    least.isFinite ∧ greatest.isFinite ∧ zero.isFinite ∧
      parse .gauge (gauge least).text = .ok (gauge least) ∧
      parse .gauge (gauge greatest).text = .ok (gauge greatest) ∧
      (gauge zero).text = "-0" ∧ parse .gauge "-0" = .ok (gauge zero) := by
  intro least greatest zero
  have hleast : least.isFinite := by decide
  have hgreatest : greatest.isFinite := by decide
  have hzero : zero.isFinite := by decide
  have htext : (gauge zero).text = "-0" := by decide
  refine ⟨hleast, hgreatest, hzero, (texts_are_lossless.1 least hleast).2.1,
    (texts_are_lossless.1 greatest hgreatest).2.1, htext, ?_⟩
  rw [← htext]
  exact (texts_are_lossless.1 zero hzero).2.1

end Telemetry
