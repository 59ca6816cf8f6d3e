import Telemetry.Power

/-!
Binary64 numbers as their bits. Every finite number is a whole count of units of `2 ^ -1074`
(`units`), so rounding, products and quotients are exact `Nat` arithmetic: `ofRatio` is the number
nearest a ratio, and a tie goes to the even neighbour.
-/

namespace Telemetry

structure Real64 where
  bits : UInt64
deriving DecidableEq, Inhabited

namespace Real64

def exponentField (x : Real64) : Nat := x.bits.toNat / 2 ^ 52 % 2 ^ 11

def fractionField (x : Real64) : Nat := x.bits.toNat % 2 ^ 52

def isNegative (x : Real64) : Bool := decide (2 ^ 63 ≤ x.bits.toNat)

def isFinite (x : Real64) : Bool := x.exponentField != 2047

def isNaN (x : Real64) : Bool := !x.isFinite && x.fractionField != 0

/-- The number with the given sign whose other bits are `magnitude`. -/
def ofMagnitude (negative : Bool) (magnitude : Nat) : Real64 :=
  ⟨UInt64.ofNat (if negative then 2 ^ 63 + magnitude else magnitude)⟩

def zero : Real64 := ofMagnitude false 0

def infinityMagnitude : Nat := 2047 * 2 ^ 52

def infinity (negative : Bool) : Real64 := ofMagnitude negative infinityMagnitude

def nan : Real64 := ⟨0x7ff8000000000000⟩

/-- The absolute value of a finite number, counted in `2 ^ -1074`. -/
def units (x : Real64) : Nat :=
  if x.exponentField = 0 then x.fractionField
  else (2 ^ 52 + x.fractionField) * 2 ^ (x.exponentField - 1)

/-- `n / d` to the nearest whole number; a half goes to the even one. -/
def divNearest (n d : Nat) : Nat :=
  let q := n / d
  let r := n % d
  if 2 * r < d ∨ (2 * r = d ∧ q % 2 = 0) then q else q + 1

/-- How many binary places a count of units lies above the 53 bits of a significand. -/
def excess (u : Nat) : Nat := u.log2 - 52

/-- The magnitude nearest `n / d` units. A significand that rounds up to `2 ^ 53` carries into the
exponent field by itself. -/
def roundUnits (n d : Nat) : Nat :=
  let s := excess (n / d)
  min infinityMagnitude (s * 2 ^ 52 + divNearest n (d * 2 ^ s))

/-- The number nearest `± n / d`. -/
def ofRatio (negative : Bool) (n d : Nat) : Real64 :=
  ofMagnitude negative (roundUnits (n * 2 ^ 1074) d)

def ofNat (n : Nat) : Real64 := ofRatio false n 1

/-- The product of two finite numbers, rounded once. -/
def mul (x y : Real64) : Real64 :=
  ofRatio (x.isNegative != y.isNegative) (x.units * y.units) (2 ^ 2148)

/-- The quotient of two finite numbers with a divisor that is not zero, rounded once. -/
def div (x y : Real64) : Real64 :=
  ofRatio (x.isNegative != y.isNegative) x.units y.units

end Real64
end Telemetry
