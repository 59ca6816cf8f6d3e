import Telemetry.Backup.Error
import Telemetry.Storage.Store
import Telemetry.Storage.Directory
import Telemetry.Metric.Record

/-!
Saving the metrics of a store as one record a line. The lines go to a temporary file beside the
backup, which takes the place of the backup once it is complete: whatever step a save stops at, the
backup is the old one or the new one.
-/

namespace Telemetry.Backup

/-- The name of the temporary file, which is never that of the backup. -/
def temporaryName (path : String) : String :=
  "." ++ (Path.fileName? path).getD "backup" ++ ".tmp"

def temporaryPath (path : String) : String := Path.sibling path (temporaryName path)

def line (m : Metric) : List UInt8 := Record.write (Record.ofMetric m) ++ ['\n'.toUInt8]

/-- The whole file. -/
def write (metrics : List Metric) : List UInt8 := metrics.flatMap line

/-- The steps of a save that writes its lines in the given chunks. -/
def steps (path : String) (chunks : List ByteArray) : List FileStep :=
  let temporary := temporaryPath path
  (if Path.parent path = "" then [] else [.makeFolders (Path.parent path)]) ++
    .create temporary :: chunks.map (.append temporary) ++
    [.sync temporary, .rename temporary path]

/-- Saves metrics and tells how many they were. -/
def save (metrics : List Metric) (path : String) (d : Directory) :
    Directory × Except Error Nat :=
  match d.run (steps path (metrics.map fun m => Bytes.ofList (line m))) with
  | (d, none) => (d, .ok metrics.length)
  | (d, some step) => (d, .error (.io step.path))

def saveStore (s : Store) (path : String) (d : Directory) : Directory × Except Error Nat :=
  match s.metrics with
  | .ok metrics => save metrics path d
  | .error why => (d, .error (.store why))

end Telemetry.Backup
