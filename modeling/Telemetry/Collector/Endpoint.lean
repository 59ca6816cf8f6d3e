import Telemetry.Collector.Intake
import Telemetry.Collector.Page
import Telemetry.Http.Target
import Telemetry.Storage.Store

/-!
What the collector answers at which path. A write goes through the repository and nowhere else, and
a read leaves it alone.
-/

namespace Telemetry.Collector

inductive Endpoint
  | index
  | ping
  | write
  | writeBatch
  | read
  | writePath (kind name value : List Char)
  | readPath (kind name : List Char)
deriving DecidableEq

namespace Endpoint

/-- The endpoint at a path. The last part of a path must not be empty, others may be. -/
def ofSegments? : List (List Char) → Option Endpoint
  | [s] =>
    if s = [] then some index
    else if s = "ping".toList then some ping
    else if s = "update".toList then some write
    else if s = "updates".toList then some writeBatch
    else if s = "value".toList then some read
    else none
  | [s, kind, name] => if s = "value".toList ∧ name ≠ [] then some (readPath kind name) else none
  | [s, kind, name, value] =>
    if s = "update".toList ∧ value ≠ [] then some (writePath kind name value) else none
  | _ => none

def ofTarget? (target : String) : Option Endpoint := (Http.segments? target).bind ofSegments?

/-- The methods of an endpoint. -/
def methods : Endpoint → List String
  | index | ping | readPath _ _ => ["GET", "HEAD"]
  | write | writeBatch | read | writePath _ _ _ => ["POST"]

end Endpoint

/-- Bodies that a handler looks at are no longer than this. -/
def maxHandledBody : Nat := 2 * 1024 * 1024

def limited (plain : ByteArray) : Except Error ByteArray :=
  if maxHandledBody < plain.size then .error .tooLong else .ok plain

def segment (s : List Char) : Except Error String :=
  match Http.segmentText? s with
  | some text => .ok text
  | none => .error .badPath

/-- The metric of a name, if it is of this kind. -/
def stored (r : Repository) (name : String) (kind : Kind) : Except Error Metric :=
  match r.store.metric name with
  | .ok m => if m.kind = kind then .ok m else .error .notFound
  | .error why => .error (.ofRead why)

def recordResponse (m : Metric) : Http.Response :=
  .of 200 .json (Bytes.ofList (Record.write (Record.ofMetric m)))

def accepted (w : Except Storage.Error Repository) : Except Error Repository :=
  match w with
  | .ok r => .ok r
  | .error why => .error (.ofWrite why)

/-- What a handler leaves of the repository, and its answer. -/
abbrev Handled := Repository × Except Error Http.Response

/-- A handler that leaves the repository alone. -/
def reading (r : Repository) (answer : Except Error Http.Response) : Handled := (r, answer)

/-- A handler that writes, and may fail before that. -/
def writing (r : Repository) (w : Except Error (Repository × Except Error Http.Response)) :
    Handled :=
  match w with
  | .ok handled => handled
  | .error e => (r, .error e)

def handleWritePath (r : Repository) (kind name value : List Char) : Handled :=
  writing r do
    let kind ← segment kind
    let name ← segment name
    let m ← readPath kind name (← segment value)
    let r ← accepted (r.set m)
    .ok (r, .ok (.plain 200
      ("updated " ++ m.kind.name ++ " " ++ m.name ++ " = " ++ m.value.text ++ "\n")))

/-- The answer is the metric as it is stored after the write. -/
def handleWrite (r : Repository) (plain : ByteArray) : Handled :=
  writing r do
    let m ← readMetric (← limited plain)
    let r ← accepted (r.set m)
    .ok (r, (stored r m.name m.kind).map recordResponse)

def handleWriteBatch (r : Repository) (plain : ByteArray) : Handled :=
  writing r do
    let batch ← readBatch (← limited plain)
    let r ← accepted (r.setAll batch)
    .ok (r, .ok (.of 200 .json (Bytes.ofList
      (Json.writeText (toString batch.length ++ " metrics received")))))

def handleRead (r : Repository) (plain : ByteArray) : Handled :=
  reading r do
    let (kind, name) ← readQuery (← limited plain)
    .ok (recordResponse (← stored r name kind))

def handleReadPath (r : Repository) (kind name : List Char) : Handled :=
  reading r do
    let kind ← segment kind
    let name ← segment name
    let m ← stored r name (← valid (Kind.parse kind))
    .ok (.plain 200 m.value.text)

def handlePing (r : Repository) : Handled :=
  reading r <|
    match r.store.ping with
    | .ok () => .ok (.plain 200 "OK")
    | .error why => .error (.unavailable why)

def handleIndex (r : Repository) : Handled :=
  reading r <|
    match r.store.metrics with
    | .ok metrics => .ok (.of 200 .html (Page.render metrics).toUTF8)
    | .error why => .error (.unavailable why)

def Endpoint.handle (e : Endpoint) (r : Repository) (plain : ByteArray) : Handled :=
  match e with
  | index => handleIndex r
  | ping => handlePing r
  | write => handleWrite r plain
  | writeBatch => handleWriteBatch r plain
  | read => handleRead r plain
  | writePath kind name value => handleWritePath r kind name value
  | readPath kind name => handleReadPath r kind name

end Telemetry.Collector
