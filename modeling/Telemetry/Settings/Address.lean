import Telemetry.Settings.Error

/-!
Addresses as `host:port`. A text that is not two parts, both there, stands for the default; a port
that is no 16-bit number is an error.
-/

namespace Telemetry.Settings

def defaultAddress : String := "localhost:8080"

def normalizeAddress (raw : String) : Except Error String :=
  match Text.splitOn ':' raw.toList with
  | [_ :: _, p :: port] =>
    match Text.unsigned? (2 ^ 16) (p :: port) with
    | some _ => .ok raw
    | none => .error (.invalidPort raw)
  | _ => .ok defaultAddress

end Telemetry.Settings
