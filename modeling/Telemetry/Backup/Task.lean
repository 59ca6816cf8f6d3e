import Telemetry.Backup.Save
import Telemetry.Duration

/-!
Saving in the background. In push mode every write leaves a notice and every notice asks for a
save; in interval mode a clock does, when an interval has passed since the start or since it last
asked. Once the task is cancelled it saves a last time and stops. Writers, the clock and the task do
their steps in any order (`Service.step?`).
-/

namespace Telemetry.Backup

/-- When saves happen. -/
inductive Mode
  | interval (period : Duration)
  | push
deriving DecidableEq

/-- An interval of zero asks for a save after every write. -/
def Mode.ofInterval (d : Duration) : Mode := if d.isZero then .push else .interval d

/-- What the task is doing. `last` marks the save after which it stops. -/
inductive Phase
  | waiting
  /-- A save is due that has not looked at the store yet. -/
  | called (last : Bool)
  | writing (metrics : List Metric) (last : Bool)
  | stopped
  /-- The task could not even start. -/
  | aborted

structure Service where
  store : Store
  /-- Writers that have written and not left their notice yet. -/
  untold : Nat
  notices : Channel
  directory : Directory
  path : String
  mode : Mode
  /-- The time, in nanoseconds, and the next time that the clock asks for a save. -/
  now : Nat
  due : Nat
  cancelled : Bool
  phase : Phase

inductive Action
  | pass (span : Duration)
  | write (batch : List Metric)
  | tell
  | take
  | fallDue
  | look
  | finish
  | cancel
  | leave

/-- Times that cannot be told any more. -/
def horizon : Nat := 2 ^ 63 * 10 ^ 9

/-- The service when its task starts. -/
def Service.start (store : Store) (directory : Directory) (path : String) (mode : Mode)
    (now : Nat) : Service :=
  let (capacity, due) := match mode with
    | .push => (1, 0)
    | .interval period => (0, now + period.nanos)
  { store, untold := 0, notices := ⟨capacity, 0⟩, directory, path, mode, now, due,
    cancelled := false, phase := if due < horizon then .waiting else .aborted }

namespace Service

/-- After a save the task waits again, unless it was the last one. -/
def afterSave (last : Bool) : Phase := if last then .stopped else .waiting

def step? (s : Service) : Action → Option Service
  | .pass span => some { s with now := s.now + span.nanos }
  | .write batch =>
    match s.store.setAll batch with
    | .ok store => some { s with store, untold := s.untold + 1 }
    | .error _ => none
  | .tell =>
    if 0 < s.untold then some { s with untold := s.untold - 1, notices := s.notices.notify }
    else none
  | .take =>
    match s.phase with
    | .waiting =>
      if s.cancelled || s.notices.pending = 0 then none
      else some { s with
        notices := { s.notices with pending := s.notices.pending - 1 }, phase := .called false }
    | _ => none
  | .fallDue =>
    match s.phase, s.mode with
    | .waiting, .interval period =>
      if s.cancelled || s.now < s.due then none
      else some { s with due := s.now + period.nanos, phase := .called false }
    | _, _ => none
  | .look =>
    match s.phase with
    | .called last =>
      match s.store.metrics with
      | .ok metrics => some { s with phase := .writing metrics last }
      | .error _ => some { s with phase := afterSave last }
    | _ => none
  | .finish =>
    match s.phase with
    | .writing metrics last =>
      some { s with directory := (save metrics s.path s.directory).1, phase := afterSave last }
    | _ => none
  | .cancel => some { s with cancelled := true }
  | .leave =>
    match s.phase with
    | .waiting => if s.cancelled then some { s with phase := .called true } else none
    | _ => none

/-- Does those of the actions that can be done. -/
def attempt (s : Service) (actions : List Action) : Service :=
  actions.foldl (fun s a => (s.step? a).getD s) s

/-- A writer's whole batch, with its notice. -/
def setAll (s : Service) (batch : List Metric) : Except Storage.Error Service := do
  let _ ← s.store.setAll batch
  .ok (s.attempt [.write batch, .tell])

/-- The saves that are due by now. -/
def serve (s : Service) : Service := s.attempt [.take, .fallDue, .look, .finish]

/-- The times that the clock asks for a save until `time`. -/
def callsUntil (s : Service) (time : Nat) : Nat :=
  match s.mode with
  | .push => 0
  | .interval period => if s.due ≤ time then (time - s.due) / period.nanos + 1 else 0

/-- Lets time pass up to a time, if it is still to come. -/
def passTo (s : Service) (time : Nat) : Service := s.attempt [.pass ⟨time - s.now⟩]

/-- The saves that the clock asks for, each at its time. -/
def serveCalls : Nat → Service → Service
  | 0, s => s
  | n + 1, s => serveCalls n (s.passTo s.due).serve

/-- Lets time pass. -/
def pass (s : Service) (span : Duration) : Service :=
  let time := s.now + span.nanos
  let s := s.serve
  (s.serveCalls (s.callsUntil time)).passTo time

/-- Whether the task came to its end. -/
def isStopped (s : Service) : Bool :=
  match s.phase with
  | .stopped => true
  | _ => false

/-- Cancels the task and waits for its end. -/
def close (s : Service) : Service := s.attempt [.cancel, .leave, .look, .finish]

end Service
end Telemetry.Backup
