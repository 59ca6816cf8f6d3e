import Telemetry.Host.Error
import Telemetry.SortedMap
import Telemetry.Text.Blank
import Telemetry.Text.Digits
import Telemetry.Text.Split
import Telemetry.Metric.Basic

/-!
Files with a key and a quantity on each line. Lines with other keys mean nothing; of several lines
with one key the last counts, but none of them may be bad.
-/

namespace Telemetry.Host

/-- A number of bytes, or of kibibytes if a unit says so. -/
def quantity? (raw : List Char) : Option Nat :=
  match Text.words raw with
  | [] => none
  | [number] => Text.word64? number
  | number :: unit :: _ => do
    let n ← Text.word64? number
    if unit = "kB".toList ∧ n * 1024 < 2 ^ 64 then some (n * 1024) else none

/-- What was found so far, with one more line. -/
def readLine (file : String) (keys : List String) (found : SortedMap Nat) (line : List Char) :
    Except Error (SortedMap Nat) :=
  match Text.splitOnce? ':' line with
  | none => .ok found
  | some (key, rest) =>
    let key := String.ofList key
    if key ∈ keys then
      match quantity? rest with
      | some n => .ok (found.insert key n)
      | none => .error (.badValue file key (String.ofList (Text.trim rest)))
    else .ok found

/-- The quantities of those of the keys that have a line. -/
def readKeys (file : String) (keys : List String) (content : String) :
    Except Error (SortedMap Nat) :=
  (Text.lines content.toList).foldlM (readLine file keys) []

def gaugeOfNat (name : String) (n : Nat) : Metric := ⟨name, .gauge (.ofNat n)⟩

end Telemetry.Host
