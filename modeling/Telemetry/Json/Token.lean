import Telemetry.Json.Basic
import Telemetry.Text.Digits

/-!
JSON tokens, read byte by byte: `Scanner.step` is the whole lexical grammar, and a text is scanned
by folding it over the bytes.
-/

namespace Telemetry.Json

inductive Token
  | openBrace
  | closeBrace
  | openBracket
  | closeBracket
  | colon
  | comma
  | null
  | bool (b : Bool)
  | number (n : Number)
  | string (s : Quoted)
deriving DecidableEq

/-- The part of a number that was read last. -/
inductive NumberPart
  | sign
  | zero
  | whole
  | point
  | fraction
  | mark
  | markSign
  | power
deriving DecidableEq

structure NumberScan where
  part : NumberPart
  negative : Bool
  coeff : Nat
  places : Nat
  powerNegative : Bool
  power : Nat

namespace NumberScan

def start (part : NumberPart) (negative : Bool) (coeff : Nat) : NumberScan :=
  ⟨part, negative, coeff, 0, false, 0⟩

def isMark (b : UInt8) : Bool := b == 'e'.toUInt8 || b == 'E'.toUInt8

/-- The number with one more byte, if the byte belongs to it. -/
def push? (n : NumberScan) (b : UInt8) : Option NumberScan :=
  match n.part, Text.digitByte? b with
  | .sign, some d => some (start (if d = 0 then .zero else .whole) n.negative d)
  | .whole, some d => some { n with coeff := 10 * n.coeff + d }
  | .point, some d => some { n with part := .fraction, coeff := 10 * n.coeff + d, places := 1 }
  | .fraction, some d => some { n with coeff := 10 * n.coeff + d, places := n.places + 1 }
  | .mark, some d => some { n with part := .power, power := d }
  | .markSign, some d => some { n with part := .power, power := d }
  | .power, some d => some { n with power := 10 * n.power + d }
  | .zero, none | .whole, none =>
    if b == '.'.toUInt8 then some { n with part := .point }
    else if isMark b then some { n with part := .mark }
    else none
  | .fraction, none => if isMark b then some { n with part := .mark } else none
  | .mark, none =>
    if b == '-'.toUInt8 then some { n with part := .markSign, powerNegative := true }
    else if b == '+'.toUInt8 then some { n with part := .markSign }
    else none
  | _, _ => none

/-- The number, if it may end where it does. -/
def finish? (n : NumberScan) : Option Number :=
  let power : Int := if n.powerNegative then -n.power else n.power
  let decimal : Decimal := ⟨n.negative, n.coeff, power - n.places⟩
  match n.part with
  | .zero | .whole => some ⟨decimal, true⟩
  | .fraction | .power => some ⟨decimal, false⟩
  | _ => none

end NumberScan

/-- What is being read. The pieces of a string are kept last first. -/
inductive Lexeme
  | none
  | word (left : List UInt8) (token : Token)
  | string (pieces : Quoted)
  | escape (pieces : Quoted)
  | hex (pieces : Quoted) (digits : Nat) (unit : Nat)
  | number (n : NumberScan)

/-- The tokens read so far, last first, and the one being read. -/
structure Scanner where
  done : List Token
  lexeme : Lexeme

def hexDigit? (b : UInt8) : Option Nat :=
  match Text.digitByte? b with
  | some d => some d
  | Option.none =>
    if 97 ≤ b ∧ b ≤ 102 then some (b.toNat - 87)
    else if 65 ≤ b ∧ b ≤ 70 then some (b.toNat - 55)
    else Option.none

def isSpace (b : UInt8) : Bool := b == 0x20 || b == 0x09 || b == 0x0a || b == 0x0d

def ascii (s : String) : List UInt8 := s.toList.map Char.toUInt8

/-- The byte that a backslash and a letter stand for. -/
def escaped? (b : UInt8) : Option UInt8 :=
  if b == '"'.toUInt8 || b == '\\'.toUInt8 || b == '/'.toUInt8 then some b
  else if b == 'b'.toUInt8 then some 8
  else if b == 'f'.toUInt8 then some 12
  else if b == 'n'.toUInt8 then some 10
  else if b == 'r'.toUInt8 then some 13
  else if b == 't'.toUInt8 then some 9
  else none

namespace Scanner

def idle (done : List Token) : Scanner := ⟨done, .none⟩

/-- A byte between tokens. -/
def begin? (done : List Token) (b : UInt8) : Option Scanner :=
  if isSpace b then some (idle done)
  else if b == '\x7b'.toUInt8 then some (idle (.openBrace :: done))
  else if b == '\x7d'.toUInt8 then some (idle (.closeBrace :: done))
  else if b == '['.toUInt8 then some (idle (.openBracket :: done))
  else if b == ']'.toUInt8 then some (idle (.closeBracket :: done))
  else if b == ':'.toUInt8 then some (idle (.colon :: done))
  else if b == ','.toUInt8 then some (idle (.comma :: done))
  else if b == '"'.toUInt8 then some ⟨done, .string []⟩
  else if b == 'n'.toUInt8 then some ⟨done, .word (ascii "ull") .null⟩
  else if b == 't'.toUInt8 then some ⟨done, .word (ascii "rue") (.bool true)⟩
  else if b == 'f'.toUInt8 then some ⟨done, .word (ascii "alse") (.bool false)⟩
  else if b == '-'.toUInt8 then some ⟨done, .number (.start .sign true 0)⟩
  else match Text.digitByte? b with
    | some d => some ⟨done, .number (.start (if d = 0 then .zero else .whole) false d)⟩
    | Option.none => Option.none

def step (s : Scanner) (b : UInt8) : Option Scanner :=
  match s.lexeme with
  | .none => begin? s.done b
  | .word (c :: left) token =>
    if b != c then Option.none
    else if left.isEmpty then some (idle (token :: s.done))
    else some ⟨s.done, .word left token⟩
  | .word [] _ => Option.none
  | .string pieces =>
    if b == '"'.toUInt8 then some (idle (.string pieces.reverse :: s.done))
    else if b == '\\'.toUInt8 then some ⟨s.done, .escape pieces⟩
    else if b < 0x20 then Option.none
    else some ⟨s.done, .string (.byte b :: pieces)⟩
  | .escape pieces =>
    if b == 'u'.toUInt8 then some ⟨s.done, .hex pieces 0 0⟩
    else (escaped? b).map fun c => ⟨s.done, .string (.byte c :: pieces)⟩
  | .hex pieces digits unit => do
    let u := 16 * unit + (← hexDigit? b)
    if digits = 3 then some ⟨s.done, .string (.unit u.toUInt16 :: pieces)⟩
    else some ⟨s.done, .hex pieces (digits + 1) u⟩
  | .number n =>
    match n.push? b with
    | some m => some ⟨s.done, .number m⟩
    | Option.none => do begin? (.number (← n.finish?) :: s.done) b

def finish? (s : Scanner) : Option (List Token) :=
  match s.lexeme with
  | .none => some s.done.reverse
  | .number n => do some (.number (← n.finish?) :: s.done).reverse
  | _ => Option.none

end Scanner

def scan (bytes : List UInt8) : Option (List Token) := do
  (← bytes.foldlM Scanner.step (Scanner.idle [])).finish?

end Telemetry.Json
