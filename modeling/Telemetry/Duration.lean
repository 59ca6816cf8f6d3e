import Telemetry.Text.Blank
import Telemetry.Text.Digits
import Telemetry.Json.Basic
import Telemetry.Json.Text

/-!
Spans of time in nanoseconds, at most `2 ^ 64 - 1` seconds and a fraction. `parse?` accepts an
integer of 64 bits with a unit, which is seconds if it is left out.
-/

namespace Telemetry

structure Duration where
  nanos : Nat
deriving DecidableEq, Inhabited

namespace Duration

def ofSeconds (n : Nat) : Duration := ⟨n * 10 ^ 9⟩

def ofMillis (n : Nat) : Duration := ⟨n * 10 ^ 6⟩

def zero : Duration := ⟨0⟩

/-- The longest span. -/
def longest : Duration := ⟨(2 ^ 64 - 1) * 10 ^ 9 + 999999999⟩

/-- The sum of two spans, but no more than the longest. -/
def plus (a b : Duration) : Duration := ⟨min (a.nanos + b.nanos) longest.nanos⟩

/-- A span `n` times over, but no more than the longest. -/
def times (d : Duration) (n : Nat) : Duration := ⟨min (n * d.nanos) longest.nanos⟩

def isZero (d : Duration) : Bool := d.nanos == 0

/-- The whole milliseconds, cut off. -/
def millis (d : Duration) : Nat := d.nanos / 10 ^ 6

/-- The whole milliseconds, rounded up. -/
def millisUp (d : Duration) : Nat := (d.nanos + 999999) / 10 ^ 6

/-- Seconds, if 64 bits hold their number. -/
def seconds? (n : Nat) : Option Duration := if n < 2 ^ 64 then some (ofSeconds n) else none

/-- `n` of a unit; the one without a name is the second. -/
def ofUnit? (n : Nat) (unit : List Char) : Option Duration :=
  if unit = [] ∨ unit = ['s'] then seconds? n
  else if unit = ['m', 's'] then some (ofMillis n)
  else if unit = ['m'] then seconds? (n * 60)
  else if unit = ['h'] then seconds? (n * 3600)
  else none

def parse? (raw : String) : Option Duration :=
  let run := Text.digitRun (Text.trim raw.toList)
  if run.count = 0 ∨ 2 ^ 64 ≤ run.value then none
  else ofUnit? run.value (Text.trim run.rest)

/-- A number of seconds or a text; null is none. -/
def ofJson? : Json → Option (Option Duration)
  | .null => some none
  | .number n => do
    let seconds ← n.int?
    if 0 ≤ seconds then some (some (← seconds? seconds.toNat)) else none
  | .string s => do some (some (← parse? (← s.text?)))
  | _ => none

end Duration
end Telemetry
