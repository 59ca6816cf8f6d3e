import Telemetry.Real64.Text

/-!
Metrics: a name with a gauge or a counter. Of two writes to one name the later gauge replaces the
earlier and counters add up (`Value.merge`); the kind of a name never changes.
-/

namespace Telemetry

inductive Kind
  | gauge
  | counter
deriving DecidableEq, Inhabited

/-- Why a metric is refused. -/
inductive Rejection
  | emptyName
  | unknownKind (raw : String)
  | invalidValue (kind : Kind) (raw : String)
  | missingValue (name : String) (kind : Kind)
  | kindMismatch (name : String) (stored incoming : Kind)
  | reservedName (name : String)
  | counterOverflow (name : String) (stored delta : Int64)
deriving DecidableEq

inductive Value
  | gauge (x : Real64)
  | counter (n : Int64)
deriving DecidableEq

structure Metric where
  name : String
  value : Value
deriving DecidableEq

namespace Kind

def name : Kind → String
  | gauge => "gauge"
  | counter => "counter"

/-- The member of a record that carries the value of this kind. -/
def field : Kind → String
  | gauge => "value"
  | counter => "delta"

/-- The kind a text names, in any case and between any white space. -/
def parse (raw : String) : Except Rejection Kind :=
  let word := Text.fold (Text.trim raw.toList)
  if word = "gauge".toList then .ok gauge
  else if word = "counter".toList then .ok counter
  else .error (.unknownKind raw)

end Kind

namespace Rejection

def message : Rejection → String
  | emptyName => "the name of the metric is empty"
  | unknownKind raw => "the type of the metric is not defined: '" ++ raw ++ "'"
  | invalidValue kind raw => "invalid " ++ kind.name ++ " value: '" ++ raw ++ "'"
  | missingValue name kind => kind.name ++ " metric '" ++ name ++ "' has no " ++ kind.field
  | kindMismatch name stored incoming =>
    "metric '" ++ name ++ "' is stored as " ++ stored.name ++ ", cannot write it as " ++
      incoming.name
  | reservedName name => "'" ++ name ++ "' is reserved for the poll counter"
  | counterOverflow name stored delta =>
    "counter '" ++ name ++ "' would overflow: " ++ toString stored.toInt ++ " + " ++
      toString delta.toInt

/-- Whether the refusal says that there is no such metric. -/
def isNotFound : Rejection → Bool
  | emptyName => true
  | _ => false

end Rejection

namespace Value

def kind : Value → Kind
  | gauge _ => .gauge
  | counter _ => .counter

def text : Value → String
  | gauge x => String.ofList x.text
  | counter n => toString n.toInt

/-- A value of the given kind: a finite decimal or a signed 64-bit integer. -/
def parse (kind : Kind) (raw : String) : Except Rejection Value :=
  let value? := match kind with
    | .gauge => ((Real64.parse? raw.toList).filter Real64.isFinite).map gauge
    | .counter => (Text.signed? raw.toList).map counter
  match value? with
  | some v => .ok v
  | none => .error (.invalidValue kind raw)

/-- What is stored under a name once `incoming` is written to it. -/
def merge (name : String) (stored incoming : Value) : Except Rejection Value :=
  match stored, incoming with
  | gauge _, gauge x => .ok (gauge x)
  | counter n, counter d =>
    match Text.int64? (n.toInt + d.toInt) with
    | some sum => .ok (counter sum)
    | none => .error (.counterOverflow name n d)
  | _, _ => .error (.kindMismatch name stored.kind incoming.kind)

end Value

/-- The counter that counts the gauges written. -/
def pollCount : String := "PollCount"

namespace Metric

def kind (m : Metric) : Kind := m.value.kind

/-- What one gauge adds to the poll counter. -/
def tick : Metric := ⟨pollCount, .counter 1⟩

/-- What every write is checked for, whatever is stored. -/
def validate (m : Metric) : Except Rejection Unit :=
  if m.name.isEmpty then .error .emptyName
  else match m.value with
    | .counter _ => .ok ()
    | .gauge x =>
      if m.name = pollCount then .error (.reservedName m.name)
      else if x.isFinite then .ok ()
      else .error (.invalidValue .gauge m.value.text)

end Metric
end Telemetry
