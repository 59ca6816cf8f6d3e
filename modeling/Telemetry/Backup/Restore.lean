import Telemetry.Backup.Error
import Telemetry.Storage.Store
import Telemetry.Storage.Directory
import Telemetry.Metric.Record

/-!
Replaying the lines of a backup into a store. Blank lines count as lines and are skipped otherwise;
at the first bad line the replay stops, and what was replayed before it stays.
-/

namespace Telemetry.Backup

/-- The metric in a line, none in a blank one. -/
def readLine (path : String) (line : Nat) (bytes : List UInt8) : Except Error (Option Metric) :=
  match String.fromUTF8? (Bytes.ofList bytes) with
  | none => .error (.io path)
  | some text =>
    if Text.trim text.toList = [] then .ok none
    else match Record.parse? bytes with
      | none => .error (.malformed path line)
      | some record =>
        match record.toMetric with
        | .ok m => .ok (some m)
        | .error why => .error (.invalid path line why)

def replayMetric (path : String) (line : Nat) (m : Metric) (s : Store) : Except Error Store :=
  match s.restore m with
  | .ok s => .ok s
  | .error why => .error (.refused path line why)

/-- Replays the lines from number `line` on, after `count` records. -/
def replay (path : String) (line count : Nat) (s : Store) :
    List (List UInt8) → Store × Except Error Nat
  | [] => (s, .ok count)
  | bytes :: rest =>
    match readLine path line bytes with
    | .error e => (s, .error e)
    | .ok none => replay path (line + 1) count s rest
    | .ok (some m) =>
      match replayMetric path line m s with
      | .error e => (s, .error e)
      | .ok s => replay path (line + 1) (count + 1) s rest

/-- The store after the replay of a backup, and how many records were replayed. A backup that is
not there has none. -/
def restore (path : String) (d : Directory) (s : Store) : Store × Except Error Nat :=
  match d.entry path with
  | .absent => (s, .ok 0)
  | .unreadable => (s, .error (.io path))
  | .file content => replay path 1 0 s (Text.lineBytes (Bytes.toList content))

end Telemetry.Backup
