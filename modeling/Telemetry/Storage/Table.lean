import Telemetry.Storage.Error
import Telemetry.SortedMap
import Telemetry.Text.Digits

/-!
Metrics as rows of a database table with a column for each kind of value. One statement inserts a
row or changes the column of its kind, if the row is of that kind, and only tells how many rows it
changed (`Table.execute`); a write asks before it whether a sum would be out of range, and after it
which kind was in the way. A row of another kind or without a value is no metric. The changes of
one call are kept together or not at all.
-/

namespace Telemetry

structure Row where
  kind : Option String
  value : Option Real64
  delta : Option Int64
deriving DecidableEq

namespace Row

open Storage (Error)

/-- A number as its column gives it back: zero has no sign there. -/
def columnReal (x : Real64) : Real64 := if x.units = 0 ∧ x.isFinite then .zero else x

/-- The row of a metric that is new. -/
def ofMetric (m : Metric) : Row :=
  match m.value with
  | .gauge x => ⟨some Kind.gauge.name, some (columnReal x), none⟩
  | .counter n => ⟨some Kind.counter.name, none, some n⟩

/-- The value in a row, if it is a metric. A row has to have a kind to be read at all. -/
def read (r : Row) : Except Error (Option Value) :=
  match r.kind with
  | none => .error .failed
  | some kind =>
    if kind = Kind.gauge.name then .ok (r.value.map Value.gauge)
    else if kind = Kind.counter.name then .ok (r.delta.map Value.counter)
    else .ok none

/-- The row with its column set to a gauge or added a counter to. A counter without a number stays
without one, and a sum out of range is no integer any more, which the table does not take. -/
def change (r : Row) : Value → Except Error Row
  | .gauge x => .ok { r with value := some (columnReal x) }
  | .counter d =>
    match r.delta with
    | none => .ok r
    | some n =>
      match Text.int64? (n.toInt + d.toInt) with
      | some sum => .ok { r with delta := some sum }
      | none => .error .failed

end Row

abbrev Table := SortedMap Row

namespace Table

open Storage (Error)

/-- The kind in the row of a name, if it is one. -/
def storedKind (t : Table) (name : String) : Except Error (Option Kind) :=
  match t.find? name with
  | none => .ok none
  | some r =>
    match r.kind with
    | none => .error .failed
    | some kind => .ok (Kind.parse kind).toOption

/-- The number in the row of a name, if it is that of a counter. -/
def storedDelta (t : Table) (name : String) : Option Int64 :=
  match t.find? name with
  | none => none
  | some r => if r.kind = some Kind.counter.name then r.delta else none

/-- Refuses a counter that would take the stored one out of range. -/
def checkSum (t : Table) (m : Metric) : Except Error Unit :=
  match m.value with
  | .gauge _ => .ok ()
  | .counter d =>
    match t.storedDelta m.name with
    | none => .ok ()
    | some n =>
      match Text.int64? (n.toInt + d.toInt) with
      | some _ => .ok ()
      | none => .error (.rejected (.counterOverflow m.name n d))

/-- Inserts the row of a metric, or changes the one that is there if it is of the same kind. Tells
how many rows are changed. -/
def execute (t : Table) (m : Metric) : Except Error (Table × Nat) :=
  match t.find? m.name with
  | none => .ok (t.insert m.name (.ofMetric m), 1)
  | some r =>
    if r.kind = some m.kind.name then
      (r.change m.value).map fun r => (t.insert m.name r, 1)
    else .ok (t, 0)

def upsert (t : Table) (m : Metric) : Except Error Table := do
  t.checkSum m
  let (t, changed) ← t.execute m
  if changed = 0 then
    .error (.rejected (.kindMismatch m.name ((← t.storedKind m.name).getD m.kind) m.kind))
  else .ok t

end Table

/-- A database with the version of its schema; the table of metrics may be missing. -/
structure Database where
  version : Int
  table : Option Table

namespace Database

open Storage (Error)

def schemaVersion : Nat := 1

def blank : Database := ⟨0, none⟩

/-- Brings the schema up to date. A table that is there already stays as it is. -/
def migrate (d : Database) : Except Error Database :=
  if d.version < 0 then .error .failed
  else if d.version = 0 then .ok ⟨schemaVersion, some (d.table.getD [])⟩
  else if d.version = schemaVersion then .ok d
  else .error (.newerSchema d.version.toNat schemaVersion)

def valid (m : Metric) : Except Error Unit :=
  match m.validate with
  | .ok () => .ok ()
  | .error why => .error (.rejected why)

def upsert (d : Database) (m : Metric) : Except Error Database :=
  match d.table with
  | none => .error .failed
  | some t => do .ok { d with table := some (← t.upsert m) }

/-- A write of one metric; that of a gauge counts. -/
def set (d : Database) (m : Metric) : Except Error Database := do
  valid m
  let d ← d.upsert m
  match m.kind with
  | .gauge => d.upsert .tick
  | .counter => .ok d

def setAll (d : Database) (batch : List Metric) : Except Error Database := batch.foldlM set d

def restore (d : Database) (m : Metric) : Except Error Database := do
  valid m
  d.upsert m

def metric (d : Database) (name : String) : Except Error Metric :=
  match d.table with
  | none => .error .failed
  | some t =>
    match t.find? name with
    | none => .error (.notFound name)
    | some row => do
      match ← row.read with
      | some value => .ok ⟨name, value⟩
      | none => .error (.notFound name)

/-- All metrics in the order of their names. -/
def metrics (d : Database) : Except Error (List Metric) :=
  match d.table with
  | none => .error .failed
  | some t => do
    let read ← t.mapM fun (name, row) => do
      .ok ((← row.read).map fun value => Metric.mk name value)
    .ok (read.filterMap id)

end Database
end Telemetry
