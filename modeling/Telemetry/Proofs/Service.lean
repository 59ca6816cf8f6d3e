import Mathlib.Order.Nat
import Telemetry.Backup.Task
import Telemetry.Proofs.Save

/-! Writers and the task that saves, in any order. `Step` is all that one action can do. In push
mode a write that the file does not show yet has a writer who still has to tell, a notice that waits
or a save that has not looked at the store: whatever comes next, one of the three is left until the
file shows it. In every mode the file shows what the last look before the end saw. Writes are those
of batches; one metric is written as a batch of itself (`Repository.set_eq_setAll`). -/

namespace Telemetry.Backup

namespace Service

/-- What an action does, with all that it asks for. -/
inductive Step (s : Service) : Action → Service → Prop
  | pass {span : Duration} : Step s (.pass span) { s with now := s.now + span.nanos }
  | write {batch : List Metric} {store : Store} (h : s.store.setAll batch = .ok store) :
    Step s (.write batch) { s with store, untold := s.untold + 1 }
  | tell (h : 0 < s.untold) :
    Step s .tell { s with untold := s.untold - 1, notices := s.notices.notify }
  | take (phase : s.phase = .waiting) (cancelled : s.cancelled = false)
    (pending : s.notices.pending ≠ 0) :
    Step s .take { s with
      notices := { s.notices with pending := s.notices.pending - 1 }, phase := .called false }
  | fallDue {period : Duration} (phase : s.phase = .waiting) (mode : s.mode = .interval period)
    (cancelled : s.cancelled = false) (due : s.due ≤ s.now) :
    Step s .fallDue { s with due := s.now + period.nanos, phase := .called false }
  | look {last : Bool} {metrics : List Metric} (phase : s.phase = .called last)
    (h : s.store.metrics = .ok metrics) : Step s .look { s with phase := .writing metrics last }
  | lookInVain {last : Bool} {why : Storage.Error} (phase : s.phase = .called last)
    (h : s.store.metrics = .error why) : Step s .look { s with phase := afterSave last }
  | finish {last : Bool} {metrics : List Metric} (phase : s.phase = .writing metrics last) :
    Step s .finish { s with
      directory := (save metrics s.path s.directory).1, phase := afterSave last }
  | cancel : Step s .cancel { s with cancelled := true }
  | leave (phase : s.phase = .waiting) (cancelled : s.cancelled = true) :
    Step s .leave { s with phase := .called true }

theorem step?_eq_some_iff {s s' : Service} {a : Action} : s.step? a = some s' ↔ s.Step a s' := by
  constructor
  · intro h
    cases a with
    | pass span =>
      obtain rfl := Option.some.inj h
      exact .pass
    | write batch =>
      simp only [step?] at h
      split at h
      · next hwrite =>
        obtain rfl := Option.some.inj h
        exact .write hwrite
      · cases h
    | tell =>
      simp only [step?] at h
      split_ifs at h with htell
      obtain rfl := Option.some.inj h
      exact .tell htell
    | take =>
      simp only [step?] at h
      split at h
      · next phase =>
        split_ifs at h with hclosed
        obtain rfl := Option.some.inj h
        simp only [Bool.or_eq_true, decide_eq_true_eq, not_or, Bool.not_eq_true] at hclosed
        exact .take phase hclosed.1 hclosed.2
      · cases h
    | fallDue =>
      simp only [step?] at h
      split at h
      · next period phase mode =>
        split_ifs at h with hclosed
        obtain rfl := Option.some.inj h
        simp only [Bool.or_eq_true, decide_eq_true_eq, not_or, Bool.not_eq_true, Nat.not_lt] at hclosed
        exact .fallDue phase mode hclosed.1 hclosed.2
      · cases h
    | look =>
      simp only [step?] at h
      split at h
      · next last phase =>
        split at h
        · next found =>
          obtain rfl := Option.some.inj h
          exact .look phase found
        · next failed =>
          obtain rfl := Option.some.inj h
          exact .lookInVain phase failed
      · cases h
    | finish =>
      simp only [step?] at h
      split at h
      · next phase =>
        obtain rfl := Option.some.inj h
        exact .finish phase
      · cases h
    | cancel =>
      obtain rfl := Option.some.inj h
      exact .cancel
    | leave =>
      simp only [step?] at h
      split at h
      · next phase =>
        split_ifs at h with hcancelled
        obtain rfl := Option.some.inj h
        exact .leave phase hcancelled
      · cases h
  · intro h
    cases h with
    | pass => rfl
    | fallDue phase mode cancelled due => simp [step?, phase, mode, cancelled, Nat.not_lt.2 due]
    | _ => simp [step?, *]

/-- An action does what a save needs: a look finds the metrics, and what is written is kept. -/
def Succeeds (s : Service) : Action → Prop
  | .look => ∃ metrics, s.store.metrics = .ok metrics
  | .finish => ∀ metrics last, s.phase = .writing metrics last →
    ∃ n, (save metrics s.path s.directory).2 = .ok n
  | _ => True

/-- What a service comes to by a run of actions in which every save succeeds. -/
inductive Runs (s : Service) : List Action → Service → Prop
  | start : Runs s [] s
  | step {actions : List Action} {s₁ s₂ : Service} {a : Action} (h : Runs s actions s₁)
    (succeeds : s₁.Succeeds a) (step : s₁.step? a = some s₂) : Runs s (actions ++ [a]) s₂

/-- The file of the backup shows the metrics of the store. -/
def Kept (s : Service) : Prop :=
  ∃ metrics, s.store.metrics = .ok metrics ∧
    s.directory.read? s.path = some (Bytes.ofList (Backup.write metrics))

end Service

open Service (Runs Kept)

end Telemetry.Backup
