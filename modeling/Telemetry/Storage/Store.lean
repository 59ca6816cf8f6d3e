import Telemetry.Storage.Memory
import Telemetry.Storage.Table

/-!
Stores of metrics, in memory or in a database, and a repository: a store with a channel that is
told about every write. Telling it never waits; a channel that is full has a notice pending anyway.
-/

namespace Telemetry

inductive Store
  | memory (values : Memory)
  /-- A database, in the file at a path or in none. -/
  | database (path : Option String) (content : Database)

namespace Store

open Storage (Error)

def name : Store → String
  | memory _ => "memory"
  | database _ _ => "sqlite"

/-- Whether the metrics outlive the program by themselves. -/
def isDurable : Store → Bool
  | memory _ => false
  | database _ _ => true

def ofMemory (r : Except Rejection Memory) : Except Error Store :=
  match r with
  | .ok values => .ok (memory values)
  | .error why => .error (.rejected why)

def set (s : Store) (m : Metric) : Except Error Store :=
  match s with
  | memory values => ofMemory (values.set m)
  | database path content => (content.set m).map (database path)

def setAll (s : Store) (batch : List Metric) : Except Error Store :=
  match s with
  | memory values => ofMemory (values.setAll batch)
  | database path content => (content.setAll batch).map (database path)

def restore (s : Store) (m : Metric) : Except Error Store :=
  match s with
  | memory values => ofMemory (values.restore m)
  | database path content => (content.restore m).map (database path)

def metric (s : Store) (name : String) : Except Error Metric :=
  match s with
  | memory values =>
    match values.metric? name with
    | some m => .ok m
    | none => .error (.notFound name)
  | database _ content => content.metric name

def metrics : Store → Except Error (List Metric)
  | memory values => .ok values.metrics
  | database _ content => content.metrics

/-- Whether the store answers at all. -/
def ping : Store → Except Error Unit
  | memory _ => .ok ()
  | database _ _ => .ok ()

end Store

/-- Notices that wait to be taken, of which there is room for `capacity`. -/
structure Channel where
  capacity : Nat
  pending : Nat

/-- Leaves a notice if there is room for it. -/
def Channel.notify (c : Channel) : Channel :=
  if c.pending < c.capacity then { c with pending := c.pending + 1 } else c

structure Repository where
  store : Store
  watcher : Option Channel

namespace Repository

open Storage (Error)

def make (store : Store) : Repository := ⟨store, none⟩

/-- The repository after a write that was accepted. -/
def accept (r : Repository) (store : Store) : Repository := ⟨store, r.watcher.map Channel.notify⟩

def set (r : Repository) (m : Metric) : Except Error Repository := do
  .ok (r.accept (← r.store.set m))

def setAll (r : Repository) (batch : List Metric) : Except Error Repository := do
  .ok (r.accept (← r.store.setAll batch))

/-- Replaying a metric is no news. -/
def restore (r : Repository) (m : Metric) : Except Error Repository := do
  .ok { r with store := ← r.store.restore m }

end Repository
end Telemetry
