import Mathlib.Algebra.Order.Ring.Nat
import Mathlib.Logic.Function.Iterate
import Telemetry.Proofs.Shutdown

/-! Time that passes. The clock only moves by `Action.pass`, and what is done meanwhile are steps of
the task; a task that waits for its deadlines saves once for each of them, and when the time is over
the next one is still to come. -/

namespace Telemetry

theorem RunsTo.trans {σ α : Type} {step? : σ → α → Option σ} {s s' s'' : σ} {as bs : List α}
    (h : RunsTo step? s as s') (h' : RunsTo step? s' bs s'') : RunsTo step? s (as ++ bs) s'' := by
  induction h' with
  | start => rwa [List.append_nil]
  | step _ step ih =>
    rw [← List.append_assoc]
    exact ih.step step

namespace Backup

def Action.nanos : Action → ℕ
  | .pass span => span.nanos
  | _ => 0

namespace Service

variable {s s' : Service}

theorem now_step {a : Action} (step : s.Step a s') : s'.now = s.now + a.nanos := by
  cases step <;> rfl

/-- Nothing but passing moves the time. -/
theorem now_run {actions : List Action} (run : RunsTo step? s actions s') :
    s'.now = s.now + (actions.map Action.nanos).sum := by
  induction run with
  | start => rfl
  | step _ step ih =>
    rw [now_step (step?_eq_some_iff.1 step), ih, List.map_append, List.sum_append, Nat.add_assoc]
    rfl

/-- What a service comes to when nobody writes to it or cancels it. -/
def Waits (s s' : Service) : Prop :=
  ∃ actions, RunsTo step? s actions s' ∧
    ∀ a ∈ actions, a.isOfTask = true ∨ ∃ span, a = .pass span

theorem Waits.refl (s : Service) : Waits s s := ⟨[], .start, nofun⟩

theorem Waits.trans {s'' : Service} (h : Waits s s') (h' : Waits s' s'') : Waits s s'' := by
  obtain ⟨actions, run, own⟩ := h
  obtain ⟨actions', run', own'⟩ := h'
  exact ⟨actions ++ actions', run.trans run', List.forall_mem_append.2 ⟨own, own'⟩⟩

theorem waits_attempt {actions : List Action}
    (own : ∀ a ∈ actions, a.isOfTask = true ∨ ∃ span, a = .pass span) (s : Service) :
    Waits s (s.attempt actions) := by
  induction actions generalizing s with
  | nil => exact .refl s
  | cons a actions ih =>
    obtain ⟨first, rest⟩ := List.forall_mem_cons.1 own
    refine Waits.trans ?_ (ih rest ((s.step? a).getD s))
    cases step : s.step? a with
    | none => exact .refl s
    | some s' => exact ⟨[a], .step .start step, List.forall_mem_singleton.2 first⟩

theorem waits_serve (s : Service) : Waits s s.serve := waits_attempt (by simp [Action.isOfTask]) s

theorem waits_passTo (s : Service) (time : ℕ) : Waits s (s.passTo time) :=
  waits_attempt (by simp) s

theorem waits_serveCalls (s : Service) (n : ℕ) : Waits s (s.serveCalls n) := by
  induction n generalizing s with
  | zero => exact .refl s
  | succ n ih => exact ((waits_passTo s s.due).trans (waits_serve _)).trans (ih _)

/-- While time passes, a service takes no steps but its own. -/
theorem waits_pass (s : Service) (span : Duration) : Waits s (s.pass span) :=
  ((waits_serve s).trans (waits_serveCalls _ _)).trans (waits_passTo _ _)

/-- It waits for the next deadline of its clock, and for nothing else. -/
structure Ticks (period : Duration) (s : Service) : Prop where
  waiting : s.phase = .waiting
  running : s.cancelled = false
  mode : s.mode = .interval period
  silent : s.notices.pending = 0

/-- The directory after `n` saves of the store as it is. -/
def savedTimes (s : Service) (n : ℕ) : Directory :=
  (fun directory => (saveStore s.store s.path directory).1)^[n] s.directory

theorem ticks_start {store : Store} {directory : Directory} {path : String} {period : Duration}
    {now : ℕ} (h : now + period.nanos < horizon) :
    (start store directory path (.interval period) now).Ticks period :=
  ⟨if_pos h, rfl, rfl, rfl⟩

namespace Ticks

variable {period : Duration}

theorem serve_of_lt (h : s.Ticks period) (early : s.now < s.due) : s.serve = s := by
  have take : s.step? .take = none := by simp [step?, h.waiting, h.silent]
  have call : s.step? .fallDue = none := by simp [step?, h.waiting, h.mode, early]
  have look : s.step? .look = none := by simp [step?, h.waiting]
  have finish : s.step? .finish = none := by simp [step?, h.waiting]
  simp only [serve, attempt, List.foldl_cons, List.foldl_nil, take, call, look, finish,
    Option.getD_none]

theorem serve_of_le (h : s.Ticks period) (due : s.due ≤ s.now) :
    s.serve = { s with due := s.now + period.nanos, directory := s.saved } := by
  have take : s.step? .take = none := by simp [step?, h.waiting, h.silent]
  have call : s.step? .fallDue =
      some { s with due := s.now + period.nanos, phase := .called false } :=
    step?_eq_some_iff.2 (.fallDue h.waiting h.mode h.running due)
  simp only [serve, attempt, List.foldl_cons, List.foldl_nil, take, call, Option.getD_none,
    Option.getD_some]
  have waiting := h.waiting
  cases found : s.store.metrics with
  | ok metrics =>
    rw [saved_of_ok found]
    simp [step?, found, afterSave, waiting]
  | error why =>
    rw [saved_of_error found]
    simp [step?, found, afterSave, waiting]

theorem serveCalls_eq (h : s.Ticks period) (hperiod : 0 < period.nanos) (early : s.now < s.due)
    (n : ℕ) : s.serveCalls n = { s with
      now := if n = 0 then s.now else s.due + (n - 1) * period.nanos
      due := s.due + n * period.nanos
      directory := s.savedTimes n } := by
  induction n generalizing s with
  | zero => simp [serveCalls, savedTimes]
  | succ n ih =>
    have reached : s.passTo s.due = { s with now := s.due } := by
      simp [Service.passTo, attempt, step?, Nat.add_sub_cancel' early.le]
    have waits : ({ s with now := s.due } : Service).Ticks period :=
      ⟨h.waiting, h.running, h.mode, h.silent⟩
    have served : (s.passTo s.due).serve =
        { s with now := s.due, due := s.due + period.nanos, directory := s.saved } := by
      rw [reached, waits.serve_of_le le_rfl]
      rfl
    have next : ({ s with
        now := s.due, due := s.due + period.nanos, directory := s.saved } : Service).Ticks period :=
      ⟨h.waiting, h.running, h.mode, h.silent⟩
    have now : (if n = 0 then s.due else s.due + period.nanos + (n - 1) * period.nanos) =
        s.due + n * period.nanos := by
      cases n with
      | zero => simp
      | succ n =>
        rw [if_neg (Nat.succ_ne_zero n), Nat.add_sub_cancel, Nat.succ_mul]
        omega
    have due : s.due + period.nanos + n * period.nanos = s.due + (n + 1) * period.nanos := by
      rw [Nat.succ_mul]
      omega
    rw [serveCalls, served, ih next (Nat.lt_add_of_pos_right hperiod)]
    simp only [now, due, Nat.add_sub_cancel, if_neg (Nat.succ_ne_zero n)]
    rfl

/-- There is no deadline up to a time but those that the clock calls, and it calls none later. -/
theorem callsUntil_eq (h : s.Ticks period) (hperiod : 0 < period.nanos) (time : ℕ) :
    time < s.due + s.callsUntil time * period.nanos ∧
      (s.callsUntil time ≠ 0 → s.due + (s.callsUntil time - 1) * period.nanos ≤ time) := by
  simp only [callsUntil, h.mode]
  split_ifs with due
  · have := Nat.div_mul_le_self (time - s.due) period.nanos
    have := Nat.lt_div_mul_add (a := time - s.due) hperiod
    rw [Nat.add_sub_cancel, Nat.succ_mul]
    omega
  · exact ⟨by omega, fun h => absurd rfl h⟩

/-- When the time is over, every deadline up to then has had its save and the next is to come. -/
theorem pass_eq (h : s.Ticks period) (hperiod : 0 < period.nanos) (early : s.now < s.due)
    (span : Duration) :
    s.pass span = { s with
      now := s.now + span.nanos
      due := s.due + s.callsUntil (s.now + span.nanos) * period.nanos
      directory := s.savedTimes (s.callsUntil (s.now + span.nanos)) } := by
  obtain ⟨-, last⟩ := h.callsUntil_eq hperiod (s.now + span.nanos)
  rw [pass, h.serve_of_lt early, h.serveCalls_eq hperiod early]
  generalize s.callsUntil (s.now + span.nanos) = n at *
  simp only [Service.passTo, attempt, List.foldl_cons, List.foldl_nil, step?, Option.getD_some]
  congr 1
  split_ifs with hn
  · omega
  · exact Nat.add_sub_cancel' (last hn)

theorem pass (h : s.Ticks period) (hperiod : 0 < period.nanos) (early : s.now < s.due)
    (span : Duration) : (s.pass span).Ticks period ∧ (s.pass span).now < (s.pass span).due := by
  rw [h.pass_eq hperiod early]
  exact ⟨⟨h.waiting, h.running, h.mode, h.silent⟩, (h.callsUntil_eq hperiod _).1⟩

end Ticks
end Service
end Backup
end Telemetry
