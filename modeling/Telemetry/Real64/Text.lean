import Telemetry.Real64.Decimal
import Telemetry.Text.Digits
import Telemetry.Text.Blank

/-!
Numbers as text. `NumberStyle` is what a format decides once the digits are chosen; `plain` is the one
of metric values, without exponents. `parse?` reads what `plain` writes, exponents and the names of
the numbers that are not finite.
-/

namespace Telemetry.Real64

/-- What a format decides about the text of a number. -/
structure NumberStyle where
  /-- Where a decimal halfway between two shortest ones goes. -/
  tie : Tie
  /-- Whether whole numbers end in `.0`. -/
  pointed : Bool
  /-- Whether a number whose point stands `p` places after its first digit has no exponent. -/
  positional : Int → Bool

def zeros (n : Nat) : List Char := List.replicate n '0'

def positionalText (style : NumberStyle) (digits : List Char) (exponent : Int) : List Char :=
  let point := exponent + digits.length
  if 0 ≤ exponent then
    digits ++ zeros exponent.toNat ++ (if style.pointed then ".0".toList else [])
  else if 0 < point then
    digits.take point.toNat ++ '.' :: digits.drop point.toNat
  else "0.".toList ++ zeros (-point).toNat ++ digits

/-- One digit, the others after a point, and the exponent with its sign. -/
def scientificText (digits : List Char) (exponent : Int) : List Char :=
  let e := exponent + digits.length - 1
  let fraction := if digits.length ≤ 1 then [] else '.' :: digits.drop 1
  digits.take 1 ++ fraction ++ (if e < 0 then "e-".toList else "e+".toList) ++
    Nat.toDigits 10 e.natAbs

def finiteText (style : NumberStyle) (x : Real64) : List Char :=
  let d := x.shortest style.tie
  let digits := Nat.toDigits 10 d.coeff
  let body :=
    if style.positional (d.exponent + digits.length) then positionalText style digits d.exponent
    else scientificText digits d.exponent
  if d.negative then '-' :: body else body

/-- No exponent at any size, no point in whole numbers; a half digit goes up. -/
def plain : NumberStyle := ⟨.away, false, fun _ => true⟩

def text (x : Real64) : List Char :=
  if x.isNaN then "NaN".toList
  else if x.isFinite then finiteText plain x
  else if x.isNegative then "-inf".toList
  else "inf".toList

/-- The exponent of a decimal, behind its `e`. -/
def exponent? : List Char → Option Int
  | '-' :: ds => (Text.natural? ds).map fun n => -(n : Int)
  | '+' :: ds => (Text.natural? ds).map (fun n => (n : Int))
  | ds => (Text.natural? ds).map (fun n => (n : Int))

/-- Digits with an optional point among or around them and an optional exponent; the point alone
is no number. -/
def magnitude? (negative : Bool) (cs : List Char) : Option Decimal := do
  let whole := Text.digitRun cs
  let fraction : Text.Run Char :=
    match whole.rest with
    | '.' :: ds => Text.digitRunFrom Text.digit? 0 whole.value ds
    | rest => ⟨0, whole.value, rest⟩
  if whole.count + fraction.count = 0 then none
  else
    let scale ← match fraction.rest with
      | [] => some 0
      | 'e' :: ds => exponent? ds
      | 'E' :: ds => exponent? ds
      | _ => none
    some ⟨negative, fraction.value, scale - fraction.count⟩

def unsigned? (negative : Bool) (cs : List Char) : Option Real64 :=
  let name := Text.fold cs
  if name = "inf".toList ∨ name = "infinity".toList then some (infinity negative)
  else if name = "nan".toList then some nan
  else (magnitude? negative cs).map ofDecimal

/-- A decimal in any notation, an infinity or a NaN, with an optional sign. -/
def parse? : List Char → Option Real64
  | '-' :: cs => unsigned? true cs
  | '+' :: cs => unsigned? false cs
  | cs => unsigned? false cs

end Telemetry.Real64
