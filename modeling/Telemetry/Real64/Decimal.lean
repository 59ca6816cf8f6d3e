import Telemetry.Real64

/-!
Decimals and the numbers nearest them. `shortest` picks, of all decimals that read back as a
finite number, one with the fewest digits, and of those the nearest.
-/

namespace Telemetry

/-- `± coeff * 10 ^ exponent`. -/
structure Decimal where
  negative : Bool
  coeff : Nat
  exponent : Int
deriving DecidableEq

/-- Where a decimal halfway between two candidates goes. -/
inductive Tie
  | toEven
  | away
deriving DecidableEq

def decimalLength (n : Nat) : Nat := (Nat.toDigits 10 n).length

namespace Real64

/-- The number nearest a decimal, infinity beyond the range. The bounds on the leading digit only
keep the powers small: a decimal of `10 ^ 309` or more is above every finite number, and one below
`10 ^ -324` is nearer zero than the smallest. -/
def ofDecimal (d : Decimal) : Real64 :=
  let top := d.exponent + decimalLength d.coeff
  if d.coeff = 0 ∨ top < -323 then ofMagnitude d.negative 0
  else if 310 ≤ top then infinity d.negative
  else if 0 ≤ d.exponent then ofRatio d.negative (d.coeff * 10 ^ d.exponent.toNat) 1
  else ofRatio d.negative d.coeff (10 ^ (-d.exponent).toNat)

/-- The reals that round to `u` units, in quarters of a unit: half a gap on either side, where the
gap below a power of two is the smaller one. The ends belong to it iff the significand is even. -/
structure Basin where
  low : Nat
  high : Nat
  closed : Bool

def basin (u : Nat) : Basin :=
  let s := excess u
  let below := if s ≠ 0 ∧ u = 2 ^ (52 + s) then 2 ^ s else 2 * 2 ^ s
  ⟨4 * u - below, 4 * u + 2 * 2 ^ s, u / 2 ^ s % 2 == 0⟩

/-- Quarters of a unit and tenths of `10 ^ -323` share this scale. -/
def quarterScale : Nat := 10 ^ 324

/-- The grid of multiples of `10 ^ (place - 324)`, on the scale of `quarterScale`. -/
def gridStep (place : Nat) : Nat := 10 ^ place * 2 ^ 1076

def Basin.holds (b : Basin) (point : Nat) : Bool :=
  if b.closed then b.low * quarterScale ≤ point && point ≤ b.high * quarterScale
  else b.low * quarterScale < point && point < b.high * quarterScale

/-- The multiple of the grid step nearest `u` units among those that read back. -/
def gridPoint? (tie : Tie) (u : Nat) (b : Basin) (place : Nat) : Option Nat :=
  let step := gridStep place
  let v := 4 * u * quarterScale
  let c := v / step
  match b.holds (c * step), b.holds ((c + 1) * step) with
  | false, false => none
  | true, false => some c
  | false, true => some (c + 1)
  | true, true =>
    if 2 * v < (2 * c + 1) * step then some c
    else if (2 * c + 1) * step < 2 * v then some (c + 1)
    else match tie with
      | .toEven => some (if c % 2 = 0 then c else c + 1)
      | .away => some (c + 1)

/-- The coarsest grid at or below `place` with a point that reads back. -/
def coarsest (tie : Tie) (u : Nat) (b : Basin) : Nat → Nat × Nat
  | 0 => ((gridPoint? tie u b 0).getD 0, 0)
  | place + 1 =>
    match gridPoint? tie u b (place + 1) with
    | some c => (c, place + 1)
    | none => coarsest tie u b place

/-- No grid above this place has a point that reads back as `u` units: three bits to the digit is
a bound, as `8 ≤ 10`. -/
def topPlace (u : Nat) : Nat := (8 * u * quarterScale / 2 ^ 1076).log2 / 3 + 1

/-- The fewest digits that read back as a finite number, the nearest of them. -/
def shortest (tie : Tie) (x : Real64) : Decimal :=
  if x.units = 0 then ⟨x.isNegative, 0, 0⟩
  else
    let (c, place) := coarsest tie x.units (basin x.units) (topPlace x.units)
    ⟨x.isNegative, c, place - 324⟩

end Real64
end Telemetry
