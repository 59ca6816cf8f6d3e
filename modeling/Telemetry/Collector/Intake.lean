import Telemetry.Collector.Error
import Telemetry.Metric.Batch

/-!
Metrics and questions for metrics as they stand in the bodies and paths of requests.
-/

namespace Telemetry.Collector

def valid (r : Except Rejection α) : Except Error α :=
  match r with
  | .ok a => .ok a
  | .error why => .error (.invalid why)

def readBatch (plain : ByteArray) : Except Error (List Metric) :=
  match Batch.decode (Bytes.toList plain) with
  | .ok batch => .ok batch
  | .error .malformed => .error .malformed
  | .error (.invalid why) => .error (.invalid why)

def readRecord (plain : ByteArray) : Except Error Record :=
  match Record.parse? (Bytes.toList plain) with
  | some record => .ok record
  | none => .error .malformed

def readMetric (plain : ByteArray) : Except Error Metric := do valid (← readRecord plain).toMetric

/-- The kind and name asked for. -/
def readQuery (plain : ByteArray) : Except Error (Kind × String) := do
  valid (← readRecord plain).key

/-- A metric in a path. The kind is looked at first, then the name, then the value. -/
def readPath (kind name value : String) : Except Error Metric := do
  let kind ← valid (Kind.parse kind)
  if name.isEmpty then .error (.invalid .emptyName)
  else .ok ⟨name, ← valid (Value.parse kind value)⟩

end Telemetry.Collector
