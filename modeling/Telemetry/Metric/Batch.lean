import Telemetry.Metric.Record

/-!
Batches of metrics as JSON lists of records. A batch is read as a whole before any of its records
is looked at, so a fault in the text is told before a fault in a metric.
-/

namespace Telemetry

namespace Batch

inductive Error
  | malformed
  | invalid (why : Rejection)
deriving DecidableEq

/-- Values with a comma between them, in brackets. -/
def writeList (items : List (List UInt8)) : List UInt8 :=
  '['.toUInt8 :: [','.toUInt8].intercalate items ++ [']'.toUInt8]

def write (records : List Record) : List UInt8 := writeList (records.map Record.write)

def encode (metrics : List Metric) : List UInt8 := write (metrics.map Record.ofMetric)

def records? (bytes : List UInt8) : Option (List Record) := do
  match ← Json.parse? bytes with
  | .array items => items.mapM Record.ofJson?
  | _ => none

def decode (bytes : List UInt8) : Except Error (List Metric) :=
  match records? bytes with
  | none => .error .malformed
  | some records =>
    match records.mapM Record.toMetric with
    | .ok metrics => .ok metrics
    | .error why => .error (.invalid why)

end Batch
end Telemetry
