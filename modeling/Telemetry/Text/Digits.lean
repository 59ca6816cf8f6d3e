import Telemetry.Power

/-!
Runs of decimal digits, over characters or bytes alike. `digitRun` is the one place where digits
become numbers; the readers of integers, durations and decimals are built from it.
-/

namespace Telemetry.Text

def digit? (c : Char) : Option Nat :=
  if '0' ≤ c ∧ c ≤ '9' then some (c.toNat - 48) else none

def digitByte? (b : UInt8) : Option Nat :=
  if 48 ≤ b ∧ b ≤ 57 then some (b.toNat - 48) else none

/-- A run of digits: how many there were, the number they spell and what follows them. -/
structure Run (α : Type) where
  count : Nat
  value : Nat
  rest : List α

def digitRunFrom (digit? : α → Option Nat) (count value : Nat) : List α → Run α
  | [] => ⟨count, value, []⟩
  | x :: xs =>
    match digit? x with
    | some d => digitRunFrom digit? (count + 1) (10 * value + d) xs
    | none => ⟨count, value, x :: xs⟩

def digitRun (cs : List Char) : Run Char := digitRunFrom digit? 0 0 cs

/-- The number that a text of one or more digits spells. -/
def natural? (cs : List Char) : Option Nat :=
  let r := digitRun cs
  if r.count ≠ 0 ∧ r.rest = [] then some r.value else none

/-- An unsigned integer below `bound`; a plus sign may precede it. -/
def unsigned? (bound : Nat) (cs : List Char) : Option Nat := do
  let n ← match cs with
    | '+' :: ds => natural? ds
    | ds => natural? ds
  if n < bound then some n else none

def word64? (cs : List Char) : Option Nat := unsigned? (2 ^ 64) cs

def int64? (n : Int) : Option Int64 :=
  if Int64.minValue.toInt ≤ n ∧ n ≤ Int64.maxValue.toInt then some (Int64.ofInt n) else none

/-- A signed 64-bit integer; either sign may precede it. -/
def signed? : List Char → Option Int64
  | '-' :: ds => do int64? (-(← natural? ds))
  | '+' :: ds => do int64? (← natural? ds)
  | ds => do int64? (← natural? ds)

end Telemetry.Text
