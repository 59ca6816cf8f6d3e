import Telemetry.Proofs.Service

/-! How a backup ends. Once it is cancelled its task has at most five steps left, can take each of
them whatever the writers do, and stops behind a last look at the store: what it saw is what the
directory holds then. A task whose first deadline is out of reach takes no step at all, cancelled or
not, and nothing is saved. -/

namespace Telemetry

/-- What a system comes to by a run of actions. -/
inductive RunsTo {σ α : Type} (step? : σ → α → Option σ) (s : σ) : List α → σ → Prop
  | start : RunsTo step? s [] s
  | step {actions : List α} {s₁ s₂ : σ} {a : α} (h : RunsTo step? s actions s₁)
    (step : step? s₁ a = some s₂) : RunsTo step? s (actions ++ [a]) s₂

namespace Backup

/-- The task itself does it, and not the time, a writer or who cancels it. -/
def Action.isOfTask : Action → Bool
  | .take | .fallDue | .look | .finish | .leave => true
  | .pass _ | .write _ | .tell | .cancel => false

/-- The steps that the task has left at most, once it is cancelled. -/
def Phase.effort : Phase → ℕ
  | .called false => 5
  | .writing _ false => 4
  | .waiting => 3
  | .called true => 2
  | .writing _ true => 1
  | .stopped | .aborted => 0

theorem Phase.effort_le (p : Phase) : p.effort ≤ 5 := by
  unfold effort
  split <;> decide

namespace Service

def saved (s : Service) : Directory := (saveStore s.store s.path s.directory).1

theorem saved_of_ok {s : Service} {metrics : List Metric} (h : s.store.metrics = .ok metrics) :
    s.saved = (save metrics s.path s.directory).1 := by
  rw [saved, saveStore, h]

theorem saved_of_error {s : Service} {why : Storage.Error} (h : s.store.metrics = .error why) :
    s.saved = s.directory := by
  rw [saved, saveStore, h]

section Aborted

variable {s s' : Service}

theorem aborted_step {a : Action} (h : s.phase = .aborted) (step : s.Step a s') :
    s'.phase = .aborted ∧ s'.directory = s.directory ∧ a.isOfTask = false := by
  cases step with
  | pass => exact ⟨h, rfl, rfl⟩
  | write _ => exact ⟨h, rfl, rfl⟩
  | tell _ => exact ⟨h, rfl, rfl⟩
  | cancel => exact ⟨h, rfl, rfl⟩
  | take phase _ _ => exact nomatch h.symm.trans phase
  | fallDue phase _ _ _ => exact nomatch h.symm.trans phase
  | look phase _ => exact nomatch h.symm.trans phase
  | lookInVain phase _ => exact nomatch h.symm.trans phase
  | finish phase => exact nomatch h.symm.trans phase
  | leave phase _ => exact nomatch h.symm.trans phase

theorem aborted_run {actions : List Action} (h : s.phase = .aborted)
    (run : RunsTo step? s actions s') :
    s'.phase = .aborted ∧ s'.directory = s.directory ∧ ∀ a ∈ actions, a.isOfTask = false := by
  induction run with
  | start => exact ⟨h, rfl, nofun⟩
  | step run step ih =>
    obtain ⟨phase, directory, idle⟩ := ih
    obtain ⟨phase, same, own⟩ := aborted_step phase (step?_eq_some_iff.1 step)
    refine ⟨phase, same.trans directory, fun b hb => ?_⟩
    rcases List.mem_append.1 hb with hb | hb
    · exact idle b hb
    · exact List.mem_singleton.1 hb ▸ own

end Aborted

section Effort

variable {s s' : Service}

theorem effort_step {a : Action} (cancelled : s.cancelled = true) (step : s.Step a s') :
    s'.cancelled = true ∧ s'.phase.effort + [a].countP Action.isOfTask ≤ s.phase.effort := by
  cases step with
  | pass => exact ⟨cancelled, le_rfl⟩
  | write _ => exact ⟨cancelled, le_rfl⟩
  | tell _ => exact ⟨cancelled, le_rfl⟩
  | cancel => exact ⟨rfl, le_rfl⟩
  | take _ running _ => exact nomatch cancelled.symm.trans running
  | fallDue _ _ running _ => exact nomatch cancelled.symm.trans running
  | @look last _ phase _ =>
    refine ⟨cancelled, ?_⟩
    rw [phase]
    cases last <;> exact le_rfl
  | @lookInVain last _ phase _ =>
    refine ⟨cancelled, ?_⟩
    rw [phase]
    cases last <;> exact Nat.le_succ _
  | @finish last _ phase =>
    refine ⟨cancelled, ?_⟩
    rw [phase]
    cases last <;> exact le_rfl
  | leave phase _ =>
    refine ⟨cancelled, ?_⟩
    rw [phase]
    exact le_rfl

theorem effort_run {actions : List Action} (cancelled : s.cancelled = true)
    (run : RunsTo step? s actions s') :
    s'.cancelled = true ∧ s'.phase.effort + actions.countP Action.isOfTask ≤ s.phase.effort := by
  induction run with
  | start => exact ⟨cancelled, le_rfl⟩
  | step run step ih =>
    obtain ⟨cancelled, before⟩ := ih
    obtain ⟨cancelled, last⟩ := effort_step cancelled (step?_eq_some_iff.1 step)
    refine ⟨cancelled, ?_⟩
    rw [List.countP_append]
    omega

theorem exists_step (cancelled : s.cancelled = true) (hstopped : s.phase ≠ .stopped)
    (haborted : s.phase ≠ .aborted) :
    ∃ (a : Action) (s' : Service), a.isOfTask = true ∧ s.step? a = some s' := by
  simp only [step?_eq_some_iff]
  cases phase : s.phase with
  | waiting => exact ⟨.leave, _, rfl, .leave phase cancelled⟩
  | called last =>
    cases found : s.store.metrics with
    | ok metrics => exact ⟨.look, _, rfl, .look phase found⟩
    | error why => exact ⟨.look, _, rfl, .lookInVain phase found⟩
  | writing metrics last => exact ⟨.finish, _, rfl, .finish phase⟩
  | stopped => exact absurd phase hstopped
  | aborted => exact absurd phase haborted

end Effort

section LastLook

variable {s s' : Service} {actions : List Action}

/-- The last look of a run, behind its cancellation, at what was found. -/
def LastLook (s : Service) (actions : List Action) (found : Service) : Prop :=
  ∃ before after, actions = before ++ .look :: after ∧ RunsTo step? s before found ∧
    .cancel ∈ before ∧ .look ∉ after

theorem LastLook.concat {found : Service} {a : Action} (h : LastLook s actions found)
    (ha : a ≠ .look) : LastLook s (actions ++ [a]) found := by
  obtain ⟨before, after, rfl, run, cancelled, none⟩ := h
  refine ⟨before, after ++ [a], by simp, run, cancelled, ?_⟩
  simp [none, ha.symm]

/-- How far the last save is that ends in the state. -/
def Saving (s : Service) (actions : List Action) (s' : Service) : Prop :=
  match s'.phase with
  | .called true => .cancel ∈ actions
  | .writing metrics true => ∃ found, LastLook s actions found ∧
    found.store.metrics = .ok metrics ∧ s'.path = found.path ∧ s'.directory = found.directory
  | .stopped => ∃ found, LastLook s actions found ∧ s'.directory = found.saved
  | .aborted => False
  | _ => True

/-- What a writer does, or who cancels, leaves the last save as far as it is. -/
theorem Saving.concat {s₁ s₂ : Service} {a : Action} (h : Saving s actions s₁) (ha : a ≠ .look)
    (phase : s₂.phase = s₁.phase) (path : s₂.path = s₁.path)
    (directory : s₂.directory = s₁.directory) : Saving s (actions ++ [a]) s₂ := by
  unfold Saving at *
  rw [phase, path, directory]
  -- the phase that the hypothesis speaks of is that of the goal
  revert h
  cases s₁.phase with
  | waiting => exact id
  | called last =>
    cases last with
    | false => exact id
    | true => exact List.mem_append_left _
  | writing metrics last =>
    cases last with
    | false => exact id
    | true =>
      rintro ⟨found, looked, rest⟩
      exact ⟨found, looked.concat ha, rest⟩
  | stopped =>
    rintro ⟨found, looked, same⟩
    exact ⟨found, looked.concat ha, same⟩
  | aborted => exact id

theorem mem_of_cancelled (h : s.cancelled = false) (run : RunsTo step? s actions s')
    (cancelled : s'.cancelled = true) : .cancel ∈ actions := by
  induction run with
  | start => exact nomatch h.symm.trans cancelled
  | @step actions s₁ s₂ a run step ih =>
    cases step?_eq_some_iff.1 step with
    | cancel => simp
    | _ => exact List.mem_append_left _ (ih cancelled)

theorem saving_run (waiting : s.phase = .waiting) (h : s.cancelled = false)
    (run : RunsTo step? s actions s') : Saving s actions s' := by
  induction run with
  | start =>
    rw [Saving, waiting]
    trivial
  | @step actions s₁ s₂ a run step ih =>
    cases step?_eq_some_iff.1 step with
    | pass => exact ih.concat nofun rfl rfl rfl
    | write _ => exact ih.concat nofun rfl rfl rfl
    | tell _ => exact ih.concat nofun rfl rfl rfl
    | cancel => exact ih.concat nofun rfl rfl rfl
    | take _ _ _ => trivial
    | fallDue _ _ _ _ => trivial
    | leave _ cancelled => exact List.mem_append_left _ (mem_of_cancelled h run cancelled)
    | @look last metrics phase found =>
      rw [Saving, phase] at ih
      cases last with
      | false => trivial
      | true => exact ⟨s₁, ⟨actions, [], rfl, run, ih, nofun⟩, found, rfl, rfl⟩
    | @lookInVain last why phase failed =>
      rw [Saving, phase] at ih
      cases last with
      | false => trivial
      | true => exact ⟨s₁, ⟨actions, [], rfl, run, ih, nofun⟩, (saved_of_error failed).symm⟩
    | @finish last metrics phase =>
      rw [Saving, phase] at ih
      cases last with
      | false => trivial
      | true =>
        obtain ⟨found, looked, hmetrics, path, directory⟩ := ih
        refine ⟨found, looked.concat nofun, ?_⟩
        show (save metrics s₁.path s₁.directory).1 = found.saved
        rw [saved_of_ok hmetrics, path, directory]

theorem not_aborted (waiting : s.phase = .waiting) (h : s.cancelled = false)
    (run : RunsTo step? s actions s') : s'.phase ≠ .aborted := by
  intro haborted
  have saving := saving_run waiting h run
  rwa [Saving, haborted] at saving

end LastLook

/-- Whatever happens to a service, its task is there. Once it is cancelled it has a step until it
stops, has at most five, and stops with what it found by a last look saved. -/
structure EndsSaved (s : Service) : Prop where
  runs : ∀ actions s', RunsTo step? s actions s' → s'.phase ≠ .aborted
  goesOn : ∀ actions s', RunsTo step? s actions s' → s'.cancelled = true → s'.phase ≠ .stopped →
    ∃ (a : Action) (s'' : Service), a.isOfTask = true ∧ s'.step? a = some s''
  ends : ∀ actions s' rest s'', RunsTo step? s actions s' → s'.cancelled = true →
    RunsTo step? s' rest s'' → rest.countP Action.isOfTask ≤ 5
  saved : ∀ actions s', RunsTo step? s actions s' → s'.phase = .stopped →
    ∃ found, LastLook s actions found ∧ s'.directory = found.saved

/-- Whatever happens to a service, its task does nothing and nothing is saved. -/
def NeverSaves (s : Service) : Prop :=
  ∀ actions s', RunsTo step? s actions s' → s'.phase = .aborted ∧ s'.directory = s.directory ∧
    ∀ a ∈ actions, a.isOfTask = false

theorem endsSaved {s : Service} (waiting : s.phase = .waiting) (h : s.cancelled = false) :
    s.EndsSaved where
  runs _ _ run := not_aborted waiting h run
  goesOn _ _ run cancelled hstopped := exists_step cancelled hstopped (not_aborted waiting h run)
  ends _ s' _ _ _ cancelled more := by
    have bound := (effort_run cancelled more).2
    have most := s'.phase.effort_le
    omega
  saved _ _ run hstopped := by
    have saving := saving_run waiting h run
    rwa [Saving, hstopped] at saving

theorem neverSaves {s : Service} (h : s.phase = .aborted) : s.NeverSaves :=
  fun _ _ => aborted_run h

section Start

variable {store : Store} {directory : Directory} {path : String} {d : Duration} {now : ℕ}

theorem phase_start (hnow : now < horizon) :
    (start store directory path (.ofInterval d) now).phase =
      if now + d.nanos < horizon then .waiting else .aborted := by
  unfold Mode.ofInterval
  cases zero : d.isZero with
  | true =>
    have inTime : now + d.nanos < horizon := by
      rwa [beq_iff_eq.1 zero]
    rw [if_pos inTime]
    rfl
  | false => rfl

theorem waiting_start (h : now + d.nanos < horizon) :
    (start store directory path (.ofInterval d) now).phase = .waiting := by
  rw [phase_start (Nat.lt_of_le_of_lt (Nat.le_add_right _ _) h), if_pos h]

theorem aborted_start (hnow : now < horizon) (h : horizon ≤ now + d.nanos) :
    (start store directory path (.ofInterval d) now).phase = .aborted := by
  rw [phase_start hnow, if_neg (Nat.not_lt.2 h)]

end Start

theorem close_of_waiting {s : Service} (h : s.phase = .waiting) :
    s.close = { s with cancelled := true, directory := s.saved, phase := .stopped } := by
  cases found : s.store.metrics with
  | ok metrics =>
    rw [saved_of_ok found]
    simp [close, attempt, step?, h, found, afterSave]
  | error why =>
    rw [saved_of_error found]
    simp [close, attempt, step?, h, found, afterSave]

theorem close_of_aborted {s : Service} (h : s.phase = .aborted) :
    s.close = { s with cancelled := true } := by
  simp [close, attempt, step?, h]

end Service
end Backup
end Telemetry
