import Telemetry.Proofs.Shortest
import Telemetry.Proofs.Quoted

/-! Numbers of JSON. A numeral is a sign, a whole part without a leading zero, a fraction and a power
of ten, and the scanner takes it as the number it spells. The text of a finite number is a numeral of
the value of its shortest decimal, so that the number read from it is the same to the last bit. -/

namespace Telemetry.Json

/-- The parts of a number as it is written; a fraction without digits has no point. -/
structure Numeral where
  negative : Bool
  whole : List Char
  fraction : List Char
  power : Option ℤ

namespace Numeral

def scaleText (p : ℤ) : List Char :=
  (if p < 0 then "e-".toList else "e+".toList) ++ Nat.toDigits 10 p.natAbs

def tail (n : Numeral) : List Char :=
  (if n.fraction = [] then [] else '.' :: n.fraction) ++ n.power.elim [] scaleText

def text (n : Numeral) : List Char :=
  (if n.negative then ['-'] else []) ++ n.whole ++ n.tail

def number (n : Numeral) : Number :=
  ⟨⟨n.negative, Nat.ofDigitChars 10 (n.whole ++ n.fraction) 0, n.power.getD 0 - n.fraction.length⟩,
    n.fraction = [] ∧ n.power = none⟩

/-- Digits of which the first is no zero, unless it is the only one. -/
structure Whole (cs : List Char) : Prop where
  ne_nil : cs ≠ []
  digits : ∀ c ∈ cs, c.isDigit
  leading : cs.head? = some '0' → cs = ['0']

structure WellFormed (n : Numeral) : Prop where
  whole : Whole n.whole
  fraction : ∀ c ∈ n.fraction, c.isDigit

end Numeral

/-- A power of ten as it may be written. -/
structure Scale where
  mark : Char
  sign : List Char
  digits : List Char

namespace Scale

def text (s : Scale) : List Char := s.mark :: (s.sign ++ s.digits)

def power (s : Scale) : ℤ :=
  if s.sign = ['-'] then -(Nat.ofDigitChars 10 s.digits 0) else Nat.ofDigitChars 10 s.digits 0

structure WellFormed (s : Scale) : Prop where
  mark : s.mark = 'e' ∨ s.mark = 'E'
  sign : s.sign = [] ∨ s.sign = ['+'] ∨ s.sign = ['-']
  ne_nil : s.digits ≠ []
  digits : ∀ c ∈ s.digits, c.isDigit

/-- The one way in which a numeral has a power of ten. -/
def ofInt (p : ℤ) : Scale := ⟨'e', [if p < 0 then '-' else '+'], Nat.toDigits 10 p.natAbs⟩

theorem text_ofInt (p : ℤ) : (ofInt p).text = Numeral.scaleText p := by
  unfold ofInt text Numeral.scaleText
  split_ifs <;> rfl

theorem power_ofInt (p : ℤ) : (ofInt p).power = p := by
  have hdigits : Nat.ofDigitChars 10 (Nat.toDigits 10 p.natAbs) 0 = p.natAbs :=
    Nat.ofDigitChars_ten_toDigits
  by_cases hp : p < 0
  · simp only [power, ofInt, if_pos hp, hdigits, if_true]
    omega
  · simp only [power, ofInt, if_neg hp, hdigits]
    simpa using not_lt.1 hp

theorem wellFormed_ofInt (p : ℤ) : (ofInt p).WellFormed where
  mark := Or.inl rfl
  sign := by
    unfold ofInt
    split_ifs <;> simp
  ne_nil := Nat.toDigits_ne_nil
  digits := fun _ hc => Nat.isDigit_of_mem_toDigits (by omega) (by omega) hc

end Scale

/-- The parts of a number as it may be written; a fraction without digits has no point. -/
structure Literal where
  negative : Bool
  whole : List Char
  fraction : List Char
  scale : Option Scale

namespace Literal

def tail (l : Literal) : List Char :=
  (if l.fraction = [] then [] else '.' :: l.fraction) ++ l.scale.elim [] Scale.text

def text (l : Literal) : List Char :=
  (if l.negative then ['-'] else []) ++ l.whole ++ l.tail

def number (l : Literal) : Number :=
  ⟨⟨l.negative, Nat.ofDigitChars 10 (l.whole ++ l.fraction) 0,
    l.scale.elim 0 Scale.power - l.fraction.length⟩, l.fraction = [] ∧ l.scale = none⟩

structure WellFormed (l : Literal) : Prop where
  whole : Numeral.Whole l.whole
  fraction : ∀ c ∈ l.fraction, c.isDigit
  scale : ∀ s ∈ l.scale, s.WellFormed

end Literal

namespace Numeral

def literal (n : Numeral) : Literal := ⟨n.negative, n.whole, n.fraction, n.power.map Scale.ofInt⟩

theorem text_literal (n : Numeral) : n.literal.text = n.text := by
  obtain ⟨negative, whole, fraction, _ | p⟩ := n
  · rfl
  · simp only [literal, Literal.text, Literal.tail, Option.map_some, Option.elim_some,
      Scale.text_ofInt]
    rfl

theorem number_literal (n : Numeral) : n.literal.number = n.number := by
  obtain ⟨negative, whole, fraction, _ | p⟩ := n
  · simp [literal, Literal.number, number]
  · simp [literal, Literal.number, number, Scale.power_ofInt]

theorem WellFormed.literal {n : Numeral} (h : n.WellFormed) : n.literal.WellFormed := by
  refine ⟨h.whole, h.fraction, fun s hs => ?_⟩
  obtain ⟨p, -, rfl⟩ := Option.map_eq_some_iff.1 hs
  exact Scale.wellFormed_ofInt p

end Numeral

open Text (digitByte?)

theorem exists_digitChar {c : Char} (hc : c.isDigit) : ∃ d < 10, c = Nat.digitChar d := by
  simp only [Char.isDigit, Bool.and_eq_true, decide_eq_true_eq, ge_iff_le] at hc
  have hlow : 48 ≤ c.toNat := hc.1
  have hhigh : c.toNat ≤ 57 := hc.2
  refine ⟨c.toNat - 48, by omega, Char.toNat_inj.1 ?_⟩
  rw [Nat.toNat_digitChar_of_lt_ten (by omega)]
  omega

theorem digitByte_toUInt8 {c : Char} (hc : c.isDigit) :
    digitByte? c.toUInt8 = some (c.toNat - 48) := by
  obtain ⟨d, hd, rfl⟩ := exists_digitChar hc
  interval_cases d <;> rfl

theorem begin_digit (done : List Token) {c : Char} (hc : c.isDigit) :
    Scanner.begin? done c.toUInt8 =
      some ⟨done, .number (.start (if c = '0' then .zero else .whole) false (c.toNat - 48))⟩ := by
  obtain ⟨d, hd, rfl⟩ := exists_digitChar hc
  interval_cases d <;> rfl

theorem push_sign_digit {c : Char} (hc : c.isDigit) :
    NumberScan.push? (.start .sign true 0) c.toUInt8 =
      some (.start (if c = '0' then .zero else .whole) true (c.toNat - 48)) := by
  obtain ⟨d, hd, rfl⟩ := exists_digitChar hc
  interval_cases d <;> rfl

namespace NumberScan

def pushAll (n : NumberScan) (cs : List Char) : Option NumberScan :=
  (cs.map Char.toUInt8).foldlM push? n

theorem pushAll_cons (n : NumberScan) (c : Char) (cs : List Char) :
    n.pushAll (c :: cs) = (n.push? c.toUInt8).bind (·.pushAll cs) := rfl

theorem pushAll_append (n : NumberScan) (cs ds : List Char) :
    n.pushAll (cs ++ ds) = (n.pushAll cs).bind (·.pushAll ds) := by
  simp [pushAll, List.foldlM_append]

variable {negative powerNegative : Bool} {coeff places power : ℕ} {cs : List Char}

theorem pushAll_whole (hcs : ∀ c ∈ cs, c.isDigit) :
    pushAll ⟨.whole, negative, coeff, places, powerNegative, power⟩ cs =
      some ⟨.whole, negative, Nat.ofDigitChars 10 cs coeff, places, powerNegative, power⟩ := by
  induction cs generalizing coeff with
  | nil => rfl
  | cons c cs ih =>
    rw [pushAll_cons, push?, digitByte_toUInt8 (hcs c (by simp))]
    exact ih fun d hd => hcs d (by simp [hd])

theorem pushAll_fraction (hcs : ∀ c ∈ cs, c.isDigit) :
    pushAll ⟨.fraction, negative, coeff, places, powerNegative, power⟩ cs =
      some ⟨.fraction, negative, Nat.ofDigitChars 10 cs coeff, places + cs.length, powerNegative,
        power⟩ := by
  induction cs generalizing coeff places with
  | nil => rfl
  | cons c cs ih =>
    rw [pushAll_cons, push?, digitByte_toUInt8 (hcs c (by simp))]
    simp only [Option.bind_some]
    rw [ih fun d hd => hcs d (by simp [hd]), List.length_cons, Nat.add_assoc, Nat.add_comm 1]
    rfl

theorem pushAll_power (hcs : ∀ c ∈ cs, c.isDigit) :
    pushAll ⟨.power, negative, coeff, places, powerNegative, power⟩ cs =
      some ⟨.power, negative, coeff, places, powerNegative, Nat.ofDigitChars 10 cs power⟩ := by
  induction cs generalizing power with
  | nil => rfl
  | cons c cs ih =>
    rw [pushAll_cons, push?, digitByte_toUInt8 (hcs c (by simp))]
    exact ih fun d hd => hcs d (by simp [hd])

theorem pushAll_point (hcs : ∀ c ∈ cs, c.isDigit) (hne : cs ≠ []) {part : NumberPart}
    (hpart : part = .zero ∨ part = .whole) :
    pushAll ⟨part, negative, coeff, 0, false, 0⟩ ('.' :: cs) =
      some ⟨.fraction, negative, Nat.ofDigitChars 10 cs coeff, cs.length, false, 0⟩ := by
  have hpoint : push? ⟨part, negative, coeff, 0, false, 0⟩ '.'.toUInt8 =
      some ⟨.point, negative, coeff, 0, false, 0⟩ := by
    rcases hpart with rfl | rfl <;> rfl
  obtain ⟨c, cs, rfl⟩ := List.exists_cons_of_ne_nil hne
  rw [pushAll_cons, hpoint, Option.bind_some, pushAll_cons, push?,
    digitByte_toUInt8 (hcs c (by simp))]
  simp only [Option.bind_some]
  rw [pushAll_fraction fun d hd => hcs d (by simp [hd]), List.length_cons, Nat.add_comm 1]
  rfl

theorem pushAll_scale {s : Scale} (hs : s.WellFormed) {part : NumberPart}
    (hpart : part = .zero ∨ part = .whole ∨ part = .fraction) :
    pushAll ⟨part, negative, coeff, places, false, 0⟩ s.text =
      some ⟨.power, negative, coeff, places, s.sign = ['-'], Nat.ofDigitChars 10 s.digits 0⟩ := by
  obtain ⟨mark, sign, digits⟩ := s
  obtain ⟨hmark, hsign, hne, hdigits⟩ := hs
  obtain ⟨d, ds, rfl⟩ := List.exists_cons_of_ne_nil hne
  have hbegin : push? ⟨part, negative, coeff, places, false, 0⟩ mark.toUInt8 =
      some ⟨.mark, negative, coeff, places, false, 0⟩ := by
    rcases hpart with rfl | rfl | rfl <;> rcases hmark with rfl | rfl <;> rfl
  have hfirst : pushAll ⟨.mark, negative, coeff, places, false, 0⟩ (sign ++ [d]) =
      some ⟨.power, negative, coeff, places, sign = ['-'], d.toNat - 48⟩ := by
    have hdigit := digitByte_toUInt8 (hdigits d (by simp))
    have hplus : push? ⟨.mark, negative, coeff, places, false, 0⟩ '+'.toUInt8 =
        some ⟨.markSign, negative, coeff, places, false, 0⟩ := rfl
    have hminus : push? ⟨.mark, negative, coeff, places, false, 0⟩ '-'.toUInt8 =
        some ⟨.markSign, negative, coeff, places, true, 0⟩ := rfl
    rcases hsign with rfl | rfl | rfl
    · rw [List.nil_append, pushAll_cons, push?, hdigit]
      rfl
    · rw [List.cons_append, pushAll_cons, hplus, Option.bind_some, List.nil_append, pushAll_cons,
        push?, hdigit]
      rfl
    · rw [List.cons_append, pushAll_cons, hminus, Option.bind_some, List.nil_append, pushAll_cons,
        push?, hdigit]
      rfl
  rw [Scale.text, pushAll_cons, hbegin, Option.bind_some, List.append_cons, pushAll_append, hfirst,
    Option.bind_some, pushAll_power fun c hc => hdigits c (by simp [hc]), Nat.ofDigitChars_cons,
    Nat.mul_zero, Nat.zero_add]
  rfl

theorem pushAll_leading (negative : Bool) {c : Char} (h : Numeral.Whole (c :: cs)) :
    ∃ part, (part = .zero ∨ part = .whole) ∧
      pushAll (start (if c = '0' then .zero else .whole) negative (c.toNat - 48)) cs =
        some ⟨part, negative, Nat.ofDigitChars 10 (c :: cs) 0, 0, false, 0⟩ := by
  have hfirst : Nat.ofDigitChars 10 (c :: cs) 0 = Nat.ofDigitChars 10 cs (c.toNat - 48) := by
    rw [Nat.ofDigitChars_cons, Nat.mul_zero, Nat.zero_add]
    rfl
  rw [hfirst]
  by_cases hc : c = '0'
  · have hcs : cs = [] := by simpa [hc] using h.leading
    subst hc hcs
    exact ⟨.zero, Or.inl rfl, rfl⟩
  · rw [if_neg hc]
    exact ⟨.whole, Or.inr rfl, pushAll_whole fun d hd => h.digits d (by simp [hd])⟩

theorem pushAll_tail {l : Literal} (h : l.WellFormed) {part : NumberPart}
    (hpart : part = .zero ∨ part = .whole) :
    ∃ m, pushAll ⟨part, l.negative, Nat.ofDigitChars 10 l.whole 0, 0, false, 0⟩ l.tail = some m ∧
      m.finish? = some l.number := by
  obtain ⟨negative, whole, fraction, scale⟩ := l
  obtain ⟨hwhole, hfraction, hscale⟩ := h
  have hpoint : ∃ part' : NumberPart, (part' = .zero ∨ part' = .whole ∨ part' = .fraction) ∧
      (part' = .fraction ↔ fraction ≠ []) ∧
      pushAll ⟨part, negative, Nat.ofDigitChars 10 whole 0, 0, false, 0⟩
        (if fraction = [] then [] else '.' :: fraction) =
          some ⟨part', negative, Nat.ofDigitChars 10 (whole ++ fraction) 0, fraction.length, false, 0⟩ := by
    by_cases hempty : fraction = []
    · subst hempty
      refine ⟨part, ?_, ?_, by simp [pushAll]⟩
      · rcases hpart with rfl | rfl <;> simp
      · rcases hpart with rfl | rfl <;> simp
    · refine ⟨.fraction, by simp, by simp [hempty], ?_⟩
      rw [if_neg hempty, pushAll_point hfraction hempty hpart, Nat.ofDigitChars_append]
  obtain ⟨part', hpart', hfraction', hpush⟩ := hpoint
  simp only [Literal.tail, pushAll_append, hpush, Option.bind_some]
  cases scale with
  | none =>
    refine ⟨_, rfl, ?_⟩
    rcases hpart' with rfl | rfl | rfl <;> simp_all [finish?, Literal.number]
  | some s =>
    refine ⟨_, pushAll_scale (hscale s rfl) hpart', ?_⟩
    simp [finish?, Literal.number, Scale.power]

end NumberScan

/-- A byte that belongs to no number that may end before it. -/
structure Breaks (stop : UInt8) : Prop where
  digit : digitByte? stop = none
  point : stop ≠ '.'.toUInt8
  mark : NumberScan.isMark stop = false

theorem Breaks.push_eq_none {stop : UInt8} (h : Breaks stop) {m : NumberScan} {n : Number}
    (hm : m.finish? = some n) : m.push? stop = none := by
  obtain ⟨part, negative, coeff, places, powerNegative, power⟩ := m
  cases part <;> simp_all [NumberScan.finish?, NumberScan.push?, h.digit, h.point, h.mark]

/-- A byte that ends a number and is a token by itself. -/
structure Closes (stop : UInt8) (t : Token) : Prop extends Breaks stop where
  begin (done : List Token) : Scanner.begin? done stop = some (Scanner.idle (t :: done))

theorem closes_comma : Closes ','.toUInt8 .comma := ⟨⟨rfl, by decide, rfl⟩, fun _ => rfl⟩

theorem closes_brace : Closes '\x7d'.toUInt8 .closeBrace := ⟨⟨rfl, by decide, rfl⟩, fun _ => rfl⟩

theorem foldlM_number (done : List Token) {n m : NumberScan} {bytes : List UInt8}
    (h : bytes.foldlM NumberScan.push? n = some m) :
    bytes.foldlM Scanner.step ⟨done, .number n⟩ = some ⟨done, .number m⟩ := by
  induction bytes generalizing n with
  | nil =>
    obtain rfl := Option.some.inj h
    rfl
  | cons b bytes ih =>
    rw [List.foldlM_cons] at h
    obtain ⟨k, hk, h⟩ := Option.bind_eq_some_iff.1 h
    have hstep : Scanner.step ⟨done, .number n⟩ b = some ⟨done, .number k⟩ := by
      simp [Scanner.step, hk]
    rw [List.foldlM_cons, hstep]
    exact ih h

/-- The scanner goes through a literal to a number that may end there. -/
theorem foldlM_literal {l : Literal} (h : l.WellFormed) (done : List Token) :
    ∃ m, (l.text.map Char.toUInt8).foldlM Scanner.step (Scanner.idle done) = some ⟨done, .number m⟩ ∧
      m.finish? = some l.number := by
  obtain ⟨c, cs, hcs⟩ := List.exists_cons_of_ne_nil h.whole.ne_nil
  have hc : c.isDigit := h.whole.digits c (by simp [hcs])
  obtain ⟨part, hpart, hwhole⟩ := NumberScan.pushAll_leading l.negative (hcs ▸ h.whole)
  obtain ⟨m, hm, hfinish⟩ := NumberScan.pushAll_tail h hpart
  -- the first digit begins the number, behind the sign if there is one
  have hfirst : ((if l.negative then ['-', c] else [c]).map Char.toUInt8).foldlM Scanner.step
      (Scanner.idle done) = some ⟨done, .number (.start (if c = '0' then .zero else .whole) l.negative
        (c.toNat - 48))⟩ := by
    cases l.negative with
    | false =>
      have hdigit : Scanner.step (Scanner.idle done) c.toUInt8 = _ := begin_digit done hc
      simp [hdigit]
    | true =>
      have hsign : Scanner.step (Scanner.idle done) '-'.toUInt8 =
          some ⟨done, .number (.start .sign true 0)⟩ := rfl
      have hdigit : NumberScan.pushAll (.start .sign true 0) [c] =
          some (.start (if c = '0' then .zero else .whole) true (c.toNat - 48)) := by
        rw [NumberScan.pushAll_cons, push_sign_digit hc]
        rfl
      rw [if_pos rfl, List.map_cons, List.foldlM_cons, hsign]
      exact foldlM_number done hdigit
  have htext : l.text = (if l.negative then ['-', c] else [c]) ++ (cs ++ l.tail) := by
    cases hsign : l.negative <;> simp [Literal.text, hsign, hcs]
  have hrest : NumberScan.pushAll (.start (if c = '0' then .zero else .whole) l.negative
      (c.toNat - 48)) (cs ++ l.tail) = some m := by
    rw [NumberScan.pushAll_append, hwhole, Option.bind_some, ← hcs, hm]
  refine ⟨m, ?_, hfinish⟩
  rw [htext, List.map_append, List.foldlM_append, hfirst]
  exact foldlM_number done hrest

theorem foldlM_numeral {n : Numeral} (h : n.WellFormed) (done : List Token) :
    ∃ m, (n.text.map Char.toUInt8).foldlM Scanner.step (Scanner.idle done) = some ⟨done, .number m⟩ ∧
      m.finish? = some n.number := by
  rw [← n.text_literal, ← n.number_literal]
  exact foldlM_literal h.literal done

theorem reads_numeral {n : Numeral} (h : n.WellFormed) {stop : UInt8} {t : Token}
    (hstop : Closes stop t) :
    Reads (n.text.map Char.toUInt8 ++ [stop]) [.number n.number, t] := by
  intro done
  obtain ⟨m, hm, hfinish⟩ := foldlM_numeral h done
  rw [List.foldlM_append, hm]
  simp [Scanner.step, hstop.push_eq_none hfinish, hfinish, hstop.begin]

theorem scan_numeral {n : Numeral} (h : n.WellFormed) :
    scan (n.text.map Char.toUInt8) = some [.number n.number] := by
  obtain ⟨m, hm, hfinish⟩ := foldlM_numeral h []
  rw [scan, hm]
  simp [Scanner.finish?, hfinish]

end Telemetry.Json
