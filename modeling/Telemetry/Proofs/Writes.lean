import Telemetry.Storage.Store
import Telemetry.Proofs.Staging

/-! The calls that change a repository and what a run of them leaves. A refused call leaves the
repository as it was, so a run is decided by the calls that it accepts. -/

namespace Telemetry

/-- A call that may change a repository. -/
inductive Write
  | set (m : Metric)
  | setAll (batch : List Metric)
  | restore (m : Metric)

namespace Write

def metrics : Write → List Metric
  | set m => [m]
  | setAll batch => batch
  | restore m => [m]

/-- How many gauges of a call count as polls. Those that are restored do not. -/
def polls : Write → ℕ
  | set m => [m].countP (·.kind = .gauge)
  | setAll batch => batch.countP (·.kind = .gauge)
  | restore _ => 0

end Write

def Memory.apply (v : Memory) : Write → Except Rejection Memory
  | .set m => v.set m
  | .setAll batch => v.setAll batch
  | .restore m => v.restore m

namespace Store

open Storage (Error)

def apply (s : Store) : Write → Except Error Store
  | .set m => s.set m
  | .setAll batch => s.setAll batch
  | .restore m => s.restore m

theorem ofMemory_alike (x : Except Rejection Memory) :
    Alike Error.rejected (fun v s => memory v = s) x (ofMemory x) := by
  cases x with
  | error why => exact .error why
  | ok v => exact .ok rfl

end Store

namespace Repository

open Storage (Error)

def apply (r : Repository) : Write → Except Error Repository
  | .set m => r.set m
  | .setAll batch => r.setAll batch
  | .restore m => r.restore m

/-- The repository once a call is accepted and leaves this store. -/
def wrote (r : Repository) (w : Write) (s : Store) : Repository :=
  match w with
  | .restore _ => { r with store := s }
  | _ => r.accept s

@[simp] theorem store_wrote (r : Repository) (w : Write) (s : Store) : (r.wrote w s).store = s := by
  cases w <;> rfl

theorem apply_eq_map (r : Repository) (w : Write) : r.apply w = (r.store.apply w).map (r.wrote w) := by
  cases w with
  | set m => simp only [apply, set, Store.apply]; cases r.store.set m <;> rfl
  | setAll batch => simp only [apply, setAll, Store.apply]; cases r.store.setAll batch <;> rfl
  | restore m => simp only [apply, restore, Store.apply]; cases r.store.restore m <;> rfl

/-- What a call leaves of the repository, and its answer. -/
def call (r : Repository) (w : Write) : Repository × Except Error Unit :=
  match r.apply w with
  | .ok r => (r, .ok ())
  | .error e => (r, .error e)

/-- What a run of calls leaves, whatever they answer. -/
def after (r : Repository) (ws : List Write) : Repository := ws.foldl (fun r w => (r.call w).1) r

/-- The calls of a run that are accepted. -/
def accepted (r : Repository) : List Write → List Write
  | [] => []
  | w :: ws =>
    match r.apply w with
    | .ok r => w :: accepted r ws
    | .error _ => accepted r ws

theorem after_cons (r : Repository) (w : Write) (ws : List Write) :
    r.after (w :: ws) = (r.call w).1.after ws := rfl

theorem call_eq_ok_iff {r r' : Repository} {w : Write} :
    r.call w = (r', .ok ()) ↔ r.apply w = .ok r' := by
  cases h : r.apply w <;> simp [call, h]

theorem call_eq_error_iff {r : Repository} {w : Write} {e : Error} :
    r.call w = (r, .error e) ↔ r.apply w = .error e := by
  cases h : r.apply w <;> simp [call, h]

/-- Leaving out the refused calls of a run changes nothing. -/
theorem after_accepted (r : Repository) (ws : List Write) : r.after (r.accepted ws) = r.after ws := by
  induction ws generalizing r with
  | nil => rfl
  | cons w ws ih =>
    rw [accepted]
    cases h : r.apply w with
    | ok r' => rw [after_cons, after_cons, call_eq_ok_iff.2 h, ih]
    | error e => rw [after_cons, call_eq_error_iff.2 h, ih]

/-- Nor does it have any of the others refused. -/
theorem accepted_accepted (r : Repository) (ws : List Write) :
    r.accepted (r.accepted ws) = r.accepted ws := by
  induction ws generalizing r with
  | nil => rfl
  | cons w ws ih =>
    rw [accepted]
    cases h : r.apply w with
    | ok r' => simp [accepted, h, ih]
    | error e => exact ih r

end Repository
end Telemetry
