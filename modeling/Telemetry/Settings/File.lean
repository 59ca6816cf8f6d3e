import Telemetry.Settings.Error
import Telemetry.Storage.Directory
import Telemetry.Metric.Record

/-!
Configuration files: one JSON record whose fields may all be missing or null.
-/

namespace Telemetry

namespace Json

def optionalText? : Json → Option (Option String)
  | .null => some none
  | .string s => do some (some (← s.text?))
  | _ => none

def optionalBool? : Json → Option (Option Bool)
  | .null => some none
  | .bool b => some (some b)
  | _ => none

def optionalWord64? : Json → Option (Option Nat)
  | .null => some none
  | .number n => do
    let i ← n.int?
    if 0 ≤ i ∧ i.toNat < 2 ^ 64 then some (some i.toNat) else none
  | _ => none

end Json

namespace Settings

/-- The file at a path; without a path it says nothing. -/
def loadFile (d : Directory) (ofJson? : Json → Option α) (absent : α) :
    Option String → Except Error α
  | none => .ok absent
  | some path =>
    match d.entry path with
    | .file content =>
      match (Json.parse? (Bytes.toList content)).bind ofJson? with
      | some file => .ok file
      | none => .error (.malformed path)
    | _ => .error (.unreadable path)

/-- The path of the file: the variable, which may be empty for none, goes before the flag. -/
def filePath (env : Environment) (flag : Option String) : Option String :=
  (env.optionalString "CONFIG" (.of .commandLine flag)).value.value

/-- A value with a layer from the file and one from the command line over its default. -/
def layered (standard : α) (file flag : Option α) : Sourced α :=
  ((Sourced.default standard).layer file .configFile).layer flag .commandLine

end Settings
end Telemetry
