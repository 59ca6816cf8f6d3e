import Telemetry.Metric.Basic
import Telemetry.SortedMap

/-!
The values of all metrics in memory. Writes are staged over the committed values and committed
together, so a batch that is refused anywhere leaves no trace. Every gauge counts as a poll.
-/

namespace Telemetry

abbrev Memory := SortedMap Value

/-- The committed values and the changes that are pending over them. -/
structure Staged where
  base : Memory
  changes : Memory

namespace Staged

def find? (s : Staged) (name : String) : Option Value :=
  (s.changes.find? name).or (s.base.find? name)

/-- Merges a metric into what is stored under its name. -/
def merge (s : Staged) (m : Metric) : Except Rejection Staged := do
  let value ← match s.find? m.name with
    | some stored => stored.merge m.name m.value
    | none => .ok m.value
  .ok { s with changes := s.changes.insert m.name value }

/-- A write of one metric; that of a gauge counts. -/
def write (s : Staged) (m : Metric) : Except Rejection Staged := do
  m.validate
  let s ← s.merge m
  match m.kind with
  | .gauge => s.merge .tick
  | .counter => .ok s

/-- A write of one metric as it was kept, which does not count. -/
def replay (s : Staged) (m : Metric) : Except Rejection Staged := do
  m.validate
  s.merge m

def commit (s : Staged) : Memory := s.changes.foldl (fun b e => b.insert e.1 e.2) s.base

end Staged

namespace Memory

def empty : Memory := []

def stage (m : Memory) (stages : Staged → Except Rejection Staged) : Except Rejection Memory := do
  .ok (← stages ⟨m, []⟩).commit

def set (m : Memory) (metric : Metric) : Except Rejection Memory := m.stage (·.write metric)

/-- All metrics of a batch in order, or none. -/
def setAll (m : Memory) (batch : List Metric) : Except Rejection Memory :=
  m.stage fun s => batch.foldlM Staged.write s

def restore (m : Memory) (metric : Metric) : Except Rejection Memory := m.stage (·.replay metric)

def metric? (m : Memory) (name : String) : Option Metric := (m.find? name).map (⟨name, ·⟩)

/-- All metrics in the order of their names. -/
def metrics (m : Memory) : List Metric := m.map fun (name, value) => ⟨name, value⟩

end Memory
end Telemetry
