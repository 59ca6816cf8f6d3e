import Telemetry.Proofs.Pool

/-! A pool does not get stuck. As long as a job has not come all the way back, the dispatcher or a
worker can take it one place further, since the dispatcher takes results out while it waits. Such a
step is worth exactly one (`effort`), so a pool that is offered nothing more comes to rest, and then
every job that was handed over has been drained. -/

namespace Telemetry.Agent

namespace Pool

variable {Job Outcome : Type}

/-- The steps by which a job gets on. -/
def Action.Advances : Action Job Outcome → Prop
  | .enqueue | .take _ | .finish _ _ | .report _ | .drain => True
  | _ => False

/-- The dispatcher waits with a job, or a job has not come all the way back. -/
def Busy (p : Pool Job Outcome) : Prop :=
  p.offering ≠ [] ∨ p.queue ≠ none ∨ p.running ≠ [] ∨ p.held ≠ [] ∨ p.results ≠ []

/-- The steps until all jobs have come back. -/
def effort (p : Pool Job Outcome) : ℕ :=
  5 * p.offering.length + 4 * p.queue.toList.length + 3 * p.running.length + 2 * p.held.length +
    p.results.length

theorem busy_iff {p : Pool Job Outcome} : p.Busy ↔ p.effort ≠ 0 := by
  unfold Busy effort
  cases p.queue with
  | none => simp [← List.length_eq_zero_iff]; omega
  | some job => simp

theorem lengths_setWorker {p : Pool Job Outcome} {worker : ℕ} {x : Worker Job Outcome}
    (hx : p.worker? worker = some x) (y : Worker Job Outcome) :
    (p.setWorker worker y).running.length + (x.runs worker).length =
        p.running.length + (y.runs worker).length ∧
      (p.setWorker worker y).held.length + (x.holds worker).length =
        p.held.length + (y.holds worker).length := by
  simp only [← List.length_append]
  exact ⟨(running_setWorker hx y).length_eq, (held_setWorker hx y).length_eq⟩

theorem effort_step {p p' : Pool Job Outcome} {a : Action Job Outcome} (ha : a.Advances)
    (step : p.Step a p') : p'.effort + 1 = p.effort := by
  cases step with
  | @enqueue job dispatcher queue cancelled =>
    have waiting : p.offering = [job] := by rw [offering, dispatcher]
    show 5 * 0 + 4 * 1 + 3 * p.running.length + 2 * p.held.length + p.results.length + 1 = _
    rw [effort, waiting, queue, Option.toList_none, List.length_nil, List.length_singleton]
    omega
  | @drain result rest results cancelled =>
    show 5 * p.offering.length + 4 * p.queue.toList.length + 3 * p.running.length +
      2 * p.held.length + rest.length + 1 = _
    rw [effort, results, List.length_cons]
    rfl
  | @take worker job idle queue cancelled free =>
    obtain ⟨running, held⟩ := lengths_setWorker idle (.running job)
    simp only [Worker.runs, Worker.holds, List.length_nil, List.length_singleton] at running held
    show 5 * p.offering.length + 4 * 0 + 3 * (p.setWorker worker (.running job)).running.length +
      2 * (p.setWorker worker (.running job)).held.length + p.results.length + 1 = _
    rw [effort, queue, Option.toList_some, List.length_singleton]
    omega
  | @finish worker job outcome hrunning cancelled =>
    obtain ⟨running, held⟩ := lengths_setWorker hrunning (.done job outcome)
    simp only [Worker.runs, Worker.holds, List.length_nil, List.length_singleton] at running held
    show 5 * p.offering.length + 4 * p.queue.toList.length +
      3 * (p.setWorker worker (.done job outcome)).running.length +
      2 * (p.setWorker worker (.done job outcome)).held.length + p.results.length + 1 = _
    rw [effort]
    omega
  | @report worker job outcome done room =>
    obtain ⟨running, held⟩ := lengths_setWorker done .idle
    simp only [Worker.runs, Worker.holds, List.length_nil, List.length_singleton] at running held
    show 5 * p.offering.length + 4 * p.queue.toList.length +
      3 * (p.setWorker worker .idle).running.length + 2 * (p.setWorker worker .idle).held.length +
      (p.results ++ [_]).length + 1 = _
    rw [effort, List.length_append, List.length_singleton]
    omega
  | _ => exact ha.elim

theorem effort_run {p p' : Pool Job Outcome} {h h' : History Job Outcome}
    {actions : List (Action Job Outcome)} (ha : ∀ a ∈ actions, a.Advances)
    (run : p.run? h actions = some (p', h')) : p'.effort + actions.length = p.effort := by
  induction actions generalizing p h with
  | nil =>
    cases run
    rfl
  | cons a actions ih =>
    obtain ⟨p₁, hstep, run⟩ := Option.bind_eq_some_iff.1 run
    have first := effort_step (ha a List.mem_cons_self) (step?_eq_some_iff.1 hstep)
    have rest := ih (fun b hb => ha b (List.mem_cons_of_mem _ hb)) run
    rw [List.length_cons]
    omega

theorem worker?_setWorker_of_ne {p : Pool Job Outcome} {worker other : ℕ} {x : Worker Job Outcome}
    (hx : p.worker? worker = some x) (h : other ≠ worker) (y : Worker Job Outcome) :
    (p.setWorker worker y).worker? other = p.worker? other := by
  obtain ⟨i, rfl, -⟩ := worker?_eq_some_iff.1 hx
  unfold worker? setWorker
  split_ifs with hzero
  · rfl
  · exact List.getElem?_set_ne (by omega)

theorem worker?_setWorker_self {p : Pool Job Outcome} {worker : ℕ} {x : Worker Job Outcome}
    (hx : p.worker? worker = some x) (y : Worker Job Outcome) :
    (p.setWorker worker y).worker? worker = some y := by
  obtain ⟨i, rfl, hi⟩ := worker?_eq_some_iff.1 hx
  obtain ⟨hlt, -⟩ := List.getElem?_eq_some_iff.1 hi
  exact worker?_eq_some_iff.2 ⟨i, rfl, List.getElem?_set_self hlt⟩

/-- What progress rests on: only an idle worker holds the receiving end, and before the pool is
cancelled no worker has stopped. -/
structure Orderly (p : Pool Job Outcome) : Prop where
  size : 1 ≤ p.size
  receiver : ∀ worker, p.receiver = some worker → p.worker? worker = some .idle
  working : p.cancelled = false → ∀ worker, p.worker? worker ≠ some .stopped

theorem orderly_start (size : ℕ) : (start size : Pool Job Outcome).Orderly where
  size := by
    rw [Pool.size, start, List.length_replicate]
    omega
  receiver := nofun
  working := by
    intro _ worker hworker
    obtain ⟨i, -, hi⟩ := worker?_eq_some_iff.1 hworker
    exact nomatch (List.mem_replicate.1 (List.mem_of_getElem? hi)).2

theorem idle_setWorker {p : Pool Job Outcome} {worker other : ℕ} {x : Worker Job Outcome}
    (hx : p.worker? worker = some x) (h : x ≠ .idle) (y : Worker Job Outcome)
    (idle : p.worker? other = some .idle) : (p.setWorker worker y).worker? other = some .idle := by
  have apart : other ≠ worker := by
    rintro rfl
    exact h (Option.some.inj (hx.symm.trans idle))
  rw [worker?_setWorker_of_ne hx apart, idle]

theorem working_setWorker {p : Pool Job Outcome} {worker : ℕ} {x y : Worker Job Outcome}
    (hx : p.worker? worker = some x) (hy : y ≠ .stopped)
    (working : ∀ worker, p.worker? worker ≠ some .stopped) (other : ℕ) :
    (p.setWorker worker y).worker? other ≠ some .stopped := by
  by_cases h : other = worker
  · subst h
    rw [worker?_setWorker_self hx]
    exact fun e => hy (Option.some.inj e)
  · rw [worker?_setWorker_of_ne hx h]
    exact working other

theorem orderly_step {p p' : Pool Job Outcome} {a : Action Job Outcome} (hp : p.Orderly)
    (step : p.Step a p') : p'.Orderly := by
  obtain ⟨size, receiver, working⟩ := hp
  have size : 1 ≤ p'.size := (size_step step).symm ▸ size
  cases step with
  | offer dispatcher => exact ⟨size, receiver, working⟩
  | enqueue dispatcher queue cancelled => exact ⟨size, receiver, working⟩
  | giveUp dispatcher cancelled => exact ⟨size, receiver, working⟩
  | drain results cancelled => exact ⟨size, receiver, working⟩
  | wait idle free =>
    refine ⟨size, fun other hother => ?_, working⟩
    obtain rfl := Option.some.inj hother
    exact idle
  | take idle queue cancelled free =>
    exact ⟨size, nofun, fun _ => working_setWorker idle nofun (working cancelled)⟩
  | finish running cancelled =>
    exact ⟨size, fun other hother => idle_setWorker running nofun _ (receiver other hother),
      fun _ => working_setWorker running nofun (working cancelled)⟩
  | report done room =>
    exact ⟨size, fun other hother => idle_setWorker done nofun _ (receiver other hother),
      fun hc => working_setWorker done nofun (working hc)⟩
  | @stopIdle worker idle cancelled =>
    refine ⟨size, fun other hother => ?_, fun hc => absurd (cancelled.symm.trans hc) nofun⟩
    obtain ⟨hother, hne⟩ := Option.filter_eq_some_iff.1 hother
    have apart : other ≠ worker := by simpa using hne
    exact (worker?_setWorker_of_ne idle apart _).trans (receiver other hother)
  | stopRunning running cancelled =>
    exact ⟨size, fun other hother => idle_setWorker running nofun _ (receiver other hother),
      fun hc => absurd (cancelled.symm.trans hc) nofun⟩
  | cancel => exact ⟨size, receiver, nofun⟩

/-- If there is nothing else to be done the job in the queue is taken: by the worker that holds the
receiving end, or by any. -/
theorem exists_take {p : Pool Job Outcome} (hp : p.Orderly) (hc : p.cancelled = false)
    (running : p.running = []) (held : p.held = []) {job : Job} (queue : p.queue = some job) :
    ∃ worker p', p.Step (.take worker) p' := by
  have idle : ∀ worker x, p.worker? worker = some x → x = .idle := by
    intro worker x hx
    cases x with
    | idle => rfl
    | running job => exact absurd (mem_running.2 hx) (running ▸ List.not_mem_nil)
    | done job outcome =>
      exact absurd (mem_held (r := ⟨worker, job, outcome⟩).2 hx) (held ▸ List.not_mem_nil)
    | stopped => exact absurd hx (hp.working hc worker)
  cases hreceiver : p.receiver with
  | some worker =>
    refine ⟨worker, _, .take (hp.receiver worker hreceiver) queue hc ?_⟩
    simp [isFreeFor, hreceiver]
  | none =>
    obtain ⟨x, hx⟩ : ∃ x, p.worker? 1 = some x := ⟨_, List.getElem?_eq_getElem hp.size⟩
    obtain rfl := idle 1 x hx
    exact ⟨1, _, .take hx queue hc (by simp [isFreeFor, hreceiver])⟩

theorem exists_advance {p : Pool Job Outcome} (hp : p.Orderly) (hc : p.cancelled = false)
    (busy : p.Busy) (outcome : Job → Outcome) :
    ∃ (a : Action Job Outcome) (p' : Pool Job Outcome), a.Advances ∧ p.step? a = some p' := by
  simp only [step?_eq_some_iff]
  -- results first, so that there is room for those that workers hold
  cases results : p.results with
  | cons result rest => exact ⟨.drain, _, trivial, .drain results hc⟩
  | nil =>
    cases held : p.held with
    | cons r rest =>
      have done := mem_held.1 (held ▸ List.mem_cons_self : r ∈ p.held)
      have room : p.results.length < p.size := by
        rw [results]
        exact hp.size
      exact ⟨.report r.worker, _, trivial, .report done room⟩
    | nil =>
      cases running : p.running with
      | cons e rest =>
        have hrun := mem_running.1 (running ▸ List.mem_cons_self : (e.1, e.2) ∈ p.running)
        exact ⟨.finish e.1 (outcome e.2), _, trivial, .finish hrun hc⟩
      | nil =>
        cases queue : p.queue with
        | some job =>
          obtain ⟨worker, p', step⟩ := exists_take hp hc running held queue
          exact ⟨.take worker, p', trivial, step⟩
        | none =>
          have waiting : p.offering ≠ [] := by
            simpa [Busy, results, held, running, queue] using busy
          cases dispatcher : p.dispatcher with
          | ready => exact absurd (by rw [offering, dispatcher]) waiting
          | offering job => exact ⟨.enqueue, _, trivial, .enqueue dispatcher queue hc⟩

theorem drained_of_not_busy {p : Pool Job Outcome} {h : History Job Outcome} (hp : p.Balanced h)
    (hc : p.cancelled = false) (rest : ¬ p.Busy) :
    h.accepted.Perm (h.drained.map JobResult.job) := by
  simp only [Busy, not_or, not_not] at rest
  obtain ⟨-, queue, running, held, results⟩ := rest
  simpa [placed, queue, running, held, results, Function.comp_def] using accepted_perm_placed hp hc

end Pool

/-- A pool of whatever size never gets stuck, whatever its dispatcher and its workers do in whatever
order. As long as it is not cancelled and a job has not come all the way back, there is a step by
which one gets on; each such step is one of the `effort` that is left, whichever is taken, and once
none is left all that was handed over has been drained. -/
theorem pool_never_gets_stuck {Job Outcome : Type} {size : ℕ}
    {actions : List (Pool.Action Job Outcome)} {p : Pool Job Outcome} {h : Pool.History Job Outcome}
    (run : (Pool.start size).run? {} actions = some (p, h)) (hc : p.cancelled = false)
    (outcome : Job → Outcome) :
    (p.Busy → ∃ (a : Pool.Action Job Outcome) (p' : Pool Job Outcome),
      a.Advances ∧ p.step? a = some p') ∧
    (∀ (rest : List (Pool.Action Job Outcome)) (p' : Pool Job Outcome)
      (h' : Pool.History Job Outcome), (∀ a ∈ rest, a.Advances) → p.run? h rest = some (p', h') →
        p'.effort + rest.length = p.effort) ∧
    (p.effort = 0 → h.accepted.Perm (h.drained.map JobResult.job)) := by
  have orderly : p.Orderly := Pool.run?_induct (P := fun q _ => q.Orderly) run
    (Pool.orderly_start size) Pool.orderly_step
  have balanced := Pool.run?_induct run (Pool.balanced_start size) Pool.balanced_step
  refine ⟨fun busy => Pool.exists_advance orderly hc busy outcome,
    fun rest p' h' => Pool.effort_run, fun none => ?_⟩
  exact Pool.drained_of_not_busy balanced hc (mt Pool.busy_iff.1 (not_not.2 none))

/-- One worker that has to wait with its result since another has not been drained, a job in the queue
behind it and the dispatcher with one more: there is a step, and twelve bring all four back. -/
theorem full_pool_goes_on :
    ∃ (p : Pool ℕ Bool) (h : Pool.History ℕ Bool),
      (Pool.start 0).run? {} [.offer 1, .enqueue, .take 1, .finish 1 true, .report 1, .offer 2,
        .enqueue, .take 1, .finish 1 true, .offer 3, .enqueue, .offer 4] = some (p, h) ∧
      p.cancelled = false ∧ p.results.length = p.size ∧ p.offering = [4] ∧ p.queue = some 3 ∧
      p.held.map JobResult.job = [2] ∧
      (∃ (a : Pool.Action ℕ Bool) (p' : Pool ℕ Bool), a.Advances ∧ p.step? a = some p') ∧
      ∃ (rest : List (Pool.Action ℕ Bool)) (p' : Pool ℕ Bool) (h' : Pool.History ℕ Bool),
        p.run? h rest = some (p', h') ∧ p'.effort + rest.length = p.effort ∧
        h'.accepted.Perm (h'.drained.map JobResult.job) := by
  have run : (Pool.start 0 : Pool ℕ Bool).run? {} [.offer 1, .enqueue, .take 1, .finish 1 true,
    .report 1, .offer 2, .enqueue, .take 1, .finish 1 true, .offer 3, .enqueue, .offer 4] =
      some (_, _) := rfl
  have back : (Pool.start 0 : Pool ℕ Bool).run? {} [.offer 1, .enqueue, .take 1, .finish 1 true,
    .report 1, .offer 2, .enqueue, .take 1, .finish 1 true, .offer 3, .enqueue, .offer 4, .drain,
    .report 1, .drain, .take 1, .enqueue, .finish 1 false, .report 1, .drain, .take 1,
    .finish 1 true, .report 1, .drain] = some (_, _) := rfl
  obtain ⟨goes_on, counts, -⟩ := pool_never_gets_stuck run rfl fun _ => true
  refine ⟨_, _, run, rfl, rfl, rfl, rfl, rfl, goes_on (Or.inl (by decide)),
    [.drain, .report 1, .drain, .take 1, .enqueue, .finish 1 false, .report 1, .drain, .take 1,
      .finish 1 true, .report 1, .drain], _, _, rfl, counts _ _ _ ?_ rfl, ?_⟩
  · simp [Pool.Action.Advances]
  · exact (pool_never_gets_stuck back rfl fun _ => true).2.2 rfl

end Telemetry.Agent
