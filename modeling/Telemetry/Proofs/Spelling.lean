import Telemetry.Proofs.Numeral

/-! What tokens are written as, and texts as tokens with white space around them. The scanner finds
the tokens that a text was made of, if no two numbers stand next to each other. -/

namespace Telemetry.Json

open Text (digitByte?)

/-- The letter behind a backslash and the byte that it stands for. -/
def escapes : List (UInt8 × UInt8) :=
  [('"'.toUInt8, '"'.toUInt8), ('\\'.toUInt8, '\\'.toUInt8), ('/'.toUInt8, '/'.toUInt8),
    ('b'.toUInt8, 0x08), ('f'.toUInt8, 0x0c), ('n'.toUInt8, 0x0a), ('r'.toUInt8, 0x0d),
    ('t'.toUInt8, 0x09)]

/-- A digit to the base of sixteen. -/
def IsHex (d : ℕ) (b : UInt8) : Prop :=
  d < 16 ∧ (b = (Nat.digitChar d).toUInt8 ∨ b = (Nat.digitChar d).toUpper.toUInt8)

inductive Piece.Spelt : Piece → List UInt8 → Prop
  | plain {b : UInt8} (hlow : 0x20 ≤ b) (hquote : b ≠ '"'.toUInt8) (hslash : b ≠ '\\'.toUInt8) :
    Spelt (.byte b) [b]
  | escaped {b c : UInt8} (h : (b, c) ∈ escapes) : Spelt (.byte c) ['\\'.toUInt8, b]
  | unit {a b c d : UInt8} {p q r s : ℕ} (ha : IsHex p a) (hb : IsHex q b) (hc : IsHex r c)
    (hd : IsHex s d) : Spelt (.unit (16 * (16 * (16 * p + q) + r) + s).toUInt16)
      ['\\'.toUInt8, 'u'.toUInt8, a, b, c, d]

inductive Quoted.Spelt : Quoted → List UInt8 → Prop
  | nil : Spelt [] []
  | cons {p : Piece} {ps : Quoted} {xs ys : List UInt8} (hp : p.Spelt xs) (hps : Spelt ps ys) :
    Spelt (p :: ps) (xs ++ ys)

namespace Token

/-- What is written for a token that is always the same. -/
def word? : Token → Option String
  | openBrace => some "\x7b"
  | closeBrace => some "\x7d"
  | openBracket => some "["
  | closeBracket => some "]"
  | colon => some ":"
  | comma => some ","
  | null => some "null"
  | bool true => some "true"
  | bool false => some "false"
  | number _ => none
  | string _ => none

inductive Spelt : Token → List UInt8 → Prop
  | word {t : Token} {w : String} (h : t.word? = some w) : Spelt t (utf8 w)
  | number {l : Literal} (h : l.WellFormed) : Spelt (.number l.number) (l.text.map Char.toUInt8)
  | string {ps : Quoted} {xs : List UInt8} (h : ps.Spelt xs) :
    Spelt (.string ps) ('"'.toUInt8 :: xs ++ ['"'.toUInt8])

def isNumber : Token → Bool
  | number _ => true
  | _ => false

/-- Tokens that can stand next to each other: two numbers would run into one. -/
def Apart (t u : Token) : Prop := t.isNumber = false ∨ u.isNumber = false

end Token

def Space (bytes : List UInt8) : Prop := ∀ b ∈ bytes, b ∈ [0x20, 0x09, 0x0a, 0x0d]

/-- A text of these tokens, with white space anywhere between them. -/
inductive Laid : List Token → List UInt8 → Prop
  | nil {ws : List UInt8} (hws : Space ws) : Laid [] ws
  | cons {ws xs ys : List UInt8} {t : Token} {ts : List Token} (hws : Space ws) (ht : t.Spelt xs)
    (hts : Laid ts ys) : Laid (t :: ts) (ws ++ (xs ++ ys))

theorem Laid.space {ts : List Token} {ws text : List UInt8} (hws : Space ws) (h : Laid ts text) :
    Laid ts (ws ++ text) := by
  have hspace {ws' : List UInt8} (hws' : Space ws') : Space (ws ++ ws') := by
    intro b hb
    rcases List.mem_append.1 hb with hb | hb
    · exact hws b hb
    · exact hws' b hb
  cases h with
  | nil hws' => exact .nil (hspace hws')
  | cons hws' ht hts =>
    rw [← List.append_assoc]
    exact .cons (hspace hws') ht hts

theorem Laid.append {ts us : List Token} {xs ys : List UInt8} (hx : Laid ts xs) (hy : Laid us ys) :
    Laid (ts ++ us) (xs ++ ys) := by
  induction hx with
  | nil hws => exact hy.space hws
  | cons hws ht _ ih =>
    rw [List.append_assoc, List.append_assoc]
    exact .cons hws ht ih

theorem isSpace_iff {b : UInt8} : isSpace b ↔ b ∈ [0x20, 0x09, 0x0a, 0x0d] := by
  simp [isSpace, or_assoc]

theorem Space.breaks {ws : List UInt8} (hws : Space ws) {b : UInt8} (hb : b ∈ ws) : Breaks b := by
  have hmem := hws b hb
  simp only [List.mem_cons, List.not_mem_nil, or_false] at hmem
  rcases hmem with rfl | rfl | rfl | rfl <;> exact ⟨rfl, by decide, rfl⟩

theorem reads_space {ws : List UInt8} (hws : Space ws) : Reads ws [] := by
  induction ws with
  | nil => exact .nil
  | cons b ws ih =>
    intro done
    have hstep : Scanner.step (Scanner.idle done) b = some (Scanner.idle done) :=
      if_pos (isSpace_iff.2 (hws b (by simp)))
    rw [List.foldlM_cons, hstep]
    exact ih (fun c hc => hws c (by simp [hc])) done

theorem escaped?_of_mem {e : UInt8 × UInt8} (he : e ∈ escapes) :
    e.1 ≠ 'u'.toUInt8 ∧ escaped? e.1 = some e.2 := by
  simp only [escapes, List.mem_cons, List.not_mem_nil, or_false] at he
  rcases he with rfl | rfl | rfl | rfl | rfl | rfl | rfl | rfl <;> exact ⟨by decide, rfl⟩

theorem hexDigit?_of_isHex {d : ℕ} {b : UInt8} (h : IsHex d b) : hexDigit? b = some d := by
  obtain ⟨hd, hb⟩ := h
  interval_cases d <;> rcases hb with rfl | rfl <;> rfl

theorem foldlM_piece {p : Piece} {xs : List UInt8} (h : p.Spelt xs) (done : List Token)
    (pieces : Quoted) :
    xs.foldlM Scanner.step ⟨done, .string pieces⟩ = some ⟨done, .string (p :: pieces)⟩ := by
  have hslash : Scanner.step ⟨done, .string pieces⟩ '\\'.toUInt8 = some ⟨done, .escape pieces⟩ := rfl
  cases h with
  | plain hlow hquote hslash =>
    simp [Scanner.step, hquote, hslash, UInt8.not_lt.2 hlow]
  | escaped h =>
    obtain ⟨hne, hescaped⟩ := escaped?_of_mem h
    rw [List.foldlM_cons, hslash]
    simp [Scanner.step, hne, hescaped]
  | unit ha hb hc hd =>
    have hunit : Scanner.step ⟨done, .escape pieces⟩ 'u'.toUInt8 = some ⟨done, .hex pieces 0 0⟩ := rfl
    rw [List.foldlM_cons, hslash, Option.bind_eq_bind, Option.bind_some, List.foldlM_cons, hunit]
    simp [Scanner.step, hexDigit?_of_isHex ha, hexDigit?_of_isHex hb, hexDigit?_of_isHex hc,
      hexDigit?_of_isHex hd]

theorem foldlM_pieces {ps : Quoted} {xs : List UInt8} (h : ps.Spelt xs) (done : List Token)
    (pieces : Quoted) : xs.foldlM Scanner.step ⟨done, .string pieces⟩ =
      some ⟨done, .string (ps.reverse ++ pieces)⟩ := by
  induction h generalizing pieces with
  | nil => rfl
  | cons hp hps ih =>
    rw [List.foldlM_append, foldlM_piece hp, Option.bind_eq_bind, Option.bind_some, ih]
    simp

theorem Token.isNumber_of_word? {t : Token} {w : String} (h : t.word? = some w) :
    t.isNumber = false := by
  cases t <;> first | rfl | cases h

theorem reads_spelt {t : Token} {xs : List UInt8} (h : t.Spelt xs) (ht : t.isNumber = false) :
    Reads xs [t] := by
  intro done
  cases h with
  | word h => rcases t with _ | _ | _ | _ | _ | _ | _ | (_ | _) | _ | _ <;> cases h <;> rfl
  | number h => cases ht
  | string h =>
    have hopen : Scanner.step (Scanner.idle done) '"'.toUInt8 = some ⟨done, .string []⟩ := rfl
    rw [List.cons_append, List.foldlM_cons, hopen, Option.bind_eq_bind, Option.bind_some,
      List.foldlM_append, foldlM_pieces h]
    simp [Scanner.step]

/-- What is no number begins with a byte that belongs to no number before it. -/
theorem Token.Spelt.breaks {t : Token} {xs : List UInt8} (h : t.Spelt xs) (ht : t.isNumber = false) :
    ∃ b xs', xs = b :: xs' ∧ Breaks b := by
  cases h with
  | word h =>
    rcases t with _ | _ | _ | _ | _ | _ | _ | (_ | _) | _ | _ <;> cases h <;>
      exact ⟨_, _, rfl, rfl, by decide, rfl⟩
  | number h => cases ht
  | string h => exact ⟨_, _, rfl, rfl, by decide, rfl⟩

theorem Laid.breaks {ts : List Token} {text : List UInt8} (h : Laid ts text)
    (hts : ∀ t ∈ ts.head?, t.isNumber = false) : ∀ b ∈ text.head?, Breaks b := by
  intro b hb
  cases h with
  | nil hws => exact hws.breaks (List.mem_of_mem_head? hb)
  | @cons ws xs ys t ts hws ht _ =>
    obtain ⟨c, xs', rfl, hc⟩ := ht.breaks (hts t rfl)
    rcases ws with _ | ⟨w, ws⟩
    · obtain rfl := Option.some.inj hb
      exact hc
    · exact hws.breaks (by simpa using Or.inl (Option.some.inj hb).symm)

namespace Scanner

/-- The tokens of the whole text, once the rest of it is read. -/
def run? (s : Scanner) (bytes : List UInt8) : Option (List Token) :=
  (bytes.foldlM step s).bind finish?

theorem run?_cons (s : Scanner) (b : UInt8) (bytes : List UInt8) :
    s.run? (b :: bytes) = (s.step b).bind (·.run? bytes) := by
  simp [run?, Option.bind_assoc]

theorem run?_append {s s' : Scanner} {xs : List UInt8} (h : xs.foldlM step s = some s')
    (ys : List UInt8) : s.run? (xs ++ ys) = s'.run? ys := by
  simp [run?, List.foldlM_append, h]

/-- A number ends where what follows does not belong to it. -/
theorem run?_number (done : List Token) {m : NumberScan} {n : Number} (hm : m.finish? = some n)
    {bytes : List UInt8} (hbytes : ∀ b ∈ bytes.head?, Breaks b) :
    run? ⟨done, .number m⟩ bytes = (idle (.number n :: done)).run? bytes := by
  rcases bytes with _ | ⟨b, bytes⟩
  · simp [run?, finish?, hm, idle]
  · rw [run?_cons, run?_cons]
    simp [step, (hbytes b rfl).push_eq_none hm, hm, idle]

end Scanner

theorem Laid.run? {ts : List Token} {text : List UInt8} (h : Laid ts text)
    (hts : ts.IsChain Token.Apart) (done : List Token) :
    (Scanner.idle done).run? text = some (done.reverse ++ ts) := by
  induction h generalizing done with
  | nil hws =>
    rw [Scanner.run?, reads_space hws done]
    simp [Scanner.finish?, Scanner.idle]
  | @cons ws xs ys t ts hws ht hlaid ih =>
    obtain ⟨hnext, htail⟩ := List.isChain_cons.1 hts
    rw [Scanner.run?_append (reads_space hws done)]
    cases hnumber : t.isNumber with
    | false =>
      rw [Scanner.run?_append (reads_spelt ht hnumber _), ih htail]
      simp
    | true =>
      cases ht with
      | word h => simp [Token.isNumber_of_word? h] at hnumber
      | string h => cases hnumber
      | @number l hl =>
        have hapart : ∀ u ∈ ts.head?, u.isNumber = false := fun u hu =>
          (hnext u hu).resolve_left (by simp [hnumber])
        obtain ⟨m, hm, hfinish⟩ := foldlM_literal hl (([] : List Token).reverse ++ done)
        rw [Scanner.run?_append hm, Scanner.run?_number _ hfinish (hlaid.breaks hapart), ih htail]
        simp

end Telemetry.Json
