import Telemetry.Real64.Decimal

/-!
JSON values as they are written: numbers keep their decimal, strings keep their escapes. What a
string or a number means is decided where it is used, so a value that nobody reads may hold a
number out of range or an escape of half a surrogate pair.
-/

namespace Telemetry

namespace Json

/-- A byte of a string, or a UTF-16 unit written as `\u` and four digits. -/
inductive Piece
  | byte (b : UInt8)
  | unit (u : UInt16)
deriving DecidableEq

abbrev Quoted := List Piece

/-- A number; `integral` if it was written without point and exponent. -/
structure Number where
  decimal : Decimal
  integral : Bool
deriving DecidableEq

end Json

inductive Json
  | null
  | bool (b : Bool)
  | number (n : Json.Number)
  | string (s : Json.Quoted)
  | array (items : List Json)
  | object (members : List (Json.Quoted × Json))

namespace Json

/-- The number nearest a JSON number, unless that is an infinity. -/
def Number.real? (n : Number) : Option Real64 :=
  let x := Real64.ofDecimal n.decimal
  if x.isFinite then some x else none

/-- The integer that an integral number spells; `-0` is none, it is a number with a sign. -/
def Number.int? (n : Number) : Option Int :=
  if !n.integral then none
  else if !n.decimal.negative then some n.decimal.coeff
  else if n.decimal.coeff = 0 then none
  else some (-n.decimal.coeff)

end Json
end Telemetry
