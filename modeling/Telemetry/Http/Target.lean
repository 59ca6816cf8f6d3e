import Telemetry.Bytes.Basic
import Telemetry.Text.Split

/-!
The path of a request's target: its segments between slashes, and the bytes behind the escapes in
a segment. An escape that is none stays as it is written.
-/

namespace Telemetry.Http

/-- The path without a query or a fragment. -/
def path (target : String) : List Char := target.toList.takeWhile fun c => c ≠ '?' ∧ c ≠ '#'

/-- The segments of a path that begins with a slash. -/
def segments? (target : String) : Option (List (List Char)) :=
  match path target with
  | '/' :: rest => some (Text.splitOn '/' rest)
  | _ => none

def hexDigit? (b : UInt8) : Option Nat :=
  if 48 ≤ b ∧ b ≤ 57 then some (b.toNat - 48)
  else if 65 ≤ b ∧ b ≤ 70 then some (b.toNat - 55)
  else if 97 ≤ b ∧ b ≤ 102 then some (b.toNat - 87)
  else none

def percent : UInt8 := '%'.toUInt8

/-- The byte of an escape. -/
def escaped? (high low : UInt8) : Option UInt8 := do
  some (UInt8.ofNat (16 * (← hexDigit? high) + (← hexDigit? low)))

def percentDecode : List UInt8 → List UInt8
  | [] => []
  | b :: high :: low :: rest =>
    if b = percent then
      match escaped? high low with
      | some byte => byte :: percentDecode rest
      | none => b :: percentDecode (high :: low :: rest)
    else b :: percentDecode (high :: low :: rest)
  | b :: rest => b :: percentDecode rest

/-- The text of a segment, if its bytes are one. -/
def segmentText? (segment : List Char) : Option String :=
  String.fromUTF8? (Bytes.ofList (percentDecode (Bytes.toList (String.ofList segment).toUTF8)))

end Telemetry.Http
