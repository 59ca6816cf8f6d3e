import Mathlib.Data.List.Nodup
import Mathlib.Data.List.Perm.Basic
import Telemetry.Agent.Pool

/-! What becomes of the jobs of a pool, whatever the dispatcher and the workers do in whatever
order. `Step` is all that one action can do, and a `History` keeps what has happened so far. Four
balances hold at any time: what was offered was handed over, refused or is still offered; what was
handed over was started or is in the queue; what was started is running, was finished or was dropped;
what was finished is held by its worker, waits to be drained or was drained. -/

namespace Telemetry.Agent

variable {Job Outcome : Type}

namespace Worker

def runs (worker : ℕ) : Worker Job Outcome → List (ℕ × Job)
  | running job => [(worker, job)]
  | _ => []

/-- The result that a worker has not put into the queue yet. -/
def holds (worker : ℕ) : Worker Job Outcome → List (JobResult Job Outcome)
  | done job outcome => [⟨worker, job, outcome⟩]
  | _ => []

end Worker

namespace Pool

/-- What an action does, with all that it asks for. -/
inductive Step (p : Pool Job Outcome) : Action Job Outcome → Pool Job Outcome → Prop
  | offer {job : Job} (dispatcher : p.dispatcher = .ready) :
    Step p (.offer job) { p with dispatcher := .offering job }
  | enqueue {job : Job} (dispatcher : p.dispatcher = .offering job) (queue : p.queue = none)
    (cancelled : p.cancelled = false) :
    Step p .enqueue { p with dispatcher := .ready, queue := some job }
  | giveUp {job : Job} (dispatcher : p.dispatcher = .offering job) (cancelled : p.cancelled = true) :
    Step p .giveUp { p with dispatcher := .ready }
  | drain {result : JobResult Job Outcome} {rest : List (JobResult Job Outcome)}
    (results : p.results = result :: rest) (cancelled : p.cancelled = false) :
    Step p .drain { p with results := rest }
  | wait {worker : ℕ} (idle : p.worker? worker = some .idle) (receiver : p.receiver = none) :
    Step p (.wait worker) { p with receiver := some worker }
  | take {worker : ℕ} {job : Job} (idle : p.worker? worker = some .idle) (queue : p.queue = some job)
    (cancelled : p.cancelled = false) (free : p.isFreeFor worker = true) :
    Step p (.take worker)
      { p.setWorker worker (.running job) with queue := none, receiver := none }
  | finish {worker : ℕ} {job : Job} {outcome : Outcome}
    (running : p.worker? worker = some (.running job)) (cancelled : p.cancelled = false) :
    Step p (.finish worker outcome) (p.setWorker worker (.done job outcome))
  | report {worker : ℕ} {job : Job} {outcome : Outcome}
    (done : p.worker? worker = some (.done job outcome)) (room : p.results.length < p.size) :
    Step p (.report worker)
      { p.setWorker worker .idle with results := p.results ++ [⟨worker, job, outcome⟩] }
  | stopIdle {worker : ℕ} (idle : p.worker? worker = some .idle) (cancelled : p.cancelled = true) :
    Step p (.stop worker)
      { p.setWorker worker .stopped with receiver := p.receiver.filter (· ≠ worker) }
  | stopRunning {worker : ℕ} {job : Job} (running : p.worker? worker = some (.running job))
    (cancelled : p.cancelled = true) : Step p (.stop worker) (p.setWorker worker .stopped)
  | cancel : Step p .cancel { p with cancelled := true }

theorem step?_eq_some_iff {p p' : Pool Job Outcome} {a : Action Job Outcome} :
    p.step? a = some p' ↔ p.Step a p' := by
  constructor
  · intro h
    cases a with
    | offer job =>
      simp only [step?] at h
      split at h
      · next dispatcher =>
        obtain rfl := Option.some.inj h
        exact .offer dispatcher
      · cases h
    | enqueue =>
      simp only [step?] at h
      split at h
      · next dispatcher queue cancelled =>
        obtain rfl := Option.some.inj h
        exact .enqueue dispatcher queue cancelled
      · cases h
    | giveUp =>
      simp only [step?] at h
      split at h
      · next dispatcher cancelled =>
        obtain rfl := Option.some.inj h
        exact .giveUp dispatcher cancelled
      · cases h
    | drain =>
      simp only [step?] at h
      split at h
      · next results cancelled =>
        obtain rfl := Option.some.inj h
        exact .drain results cancelled
      · cases h
    | wait worker =>
      simp only [step?] at h
      split at h
      · next idle receiver =>
        obtain rfl := Option.some.inj h
        exact .wait idle receiver
      · cases h
    | take worker =>
      simp only [step?] at h
      split at h
      · next idle queue cancelled =>
        split_ifs at h with free
        obtain rfl := Option.some.inj h
        exact .take idle queue cancelled free
      · cases h
    | finish worker outcome =>
      simp only [step?] at h
      split at h
      · next running cancelled =>
        obtain rfl := Option.some.inj h
        exact .finish running cancelled
      · cases h
    | report worker =>
      simp only [step?] at h
      split at h
      · next done =>
        split_ifs at h with room
        obtain rfl := Option.some.inj h
        exact .report done room
      · cases h
    | stop worker =>
      simp only [step?] at h
      split at h
      · next idle cancelled =>
        obtain rfl := Option.some.inj h
        exact .stopIdle idle cancelled
      · next running cancelled =>
        obtain rfl := Option.some.inj h
        exact .stopRunning running cancelled
      · cases h
    | cancel =>
      obtain rfl := Option.some.inj h
      exact .cancel
  · intro h
    cases h <;> simp [step?, *]

/-- What has happened so far: the jobs that were offered, handed over and given up by the dispatcher,
those that were started and dropped, each with its worker, and the results. -/
structure History (Job Outcome : Type) where
  offered : List Job := []
  accepted : List Job := []
  refused : List Job := []
  started : List (ℕ × Job) := []
  dropped : List (ℕ × Job) := []
  finished : List (JobResult Job Outcome) := []
  drained : List (JobResult Job Outcome) := []

/-- The job that the dispatcher waits with. -/
def offering (p : Pool Job Outcome) : List Job :=
  match p.dispatcher with
  | .ready => []
  | .offering job => [job]

/-- The job that the worker of a number runs. -/
def runsAt (p : Pool Job Outcome) (worker : ℕ) : List (ℕ × Job) :=
  (p.worker? worker).elim [] (Worker.runs worker)

/-- What an action adds to the history of a pool. -/
def History.note (h : History Job Outcome) (p : Pool Job Outcome) :
    Action Job Outcome → History Job Outcome
  | .offer job => { h with offered := h.offered ++ [job] }
  | .enqueue => { h with accepted := h.accepted ++ p.offering }
  | .giveUp => { h with refused := h.refused ++ p.offering }
  | .drain => { h with drained := h.drained ++ p.results.take 1 }
  | .take worker => { h with started := h.started ++ p.queue.toList.map (worker, ·) }
  | .finish worker outcome =>
    { h with finished := h.finished ++ (p.runsAt worker).map fun e => ⟨e.1, e.2, outcome⟩ }
  | .stop worker => { h with dropped := h.dropped ++ p.runsAt worker }
  | .wait _ | .report _ | .cancel => h

/-- What a pool and its history come to if all of the actions can be done, one after the other. -/
def run? (p : Pool Job Outcome) (h : History Job Outcome) :
    List (Action Job Outcome) → Option (Pool Job Outcome × History Job Outcome)
  | [] => some (p, h)
  | a :: actions => (p.step? a).bind fun p' => p'.run? (h.note p a) actions

theorem run?_induct {P : Pool Job Outcome → History Job Outcome → Prop} {p p' : Pool Job Outcome}
    {h h' : History Job Outcome} {actions : List (Action Job Outcome)}
    (run : p.run? h actions = some (p', h')) (start : P p h)
    (step : ∀ {p p' : Pool Job Outcome} {h : History Job Outcome} {a : Action Job Outcome},
      P p h → p.Step a p' → P p' (h.note p a)) : P p' h' := by
  induction actions generalizing p h with
  | nil =>
    cases run
    exact start
  | cons a actions ih =>
    obtain ⟨p₁, hstep, run⟩ := Option.bind_eq_some_iff.1 run
    exact ih run (step start (step?_eq_some_iff.1 hstep))

/-! ### The workers -/

theorem worker?_eq_some_iff {p : Pool Job Outcome} {worker : ℕ} {x : Worker Job Outcome} :
    p.worker? worker = some x ↔ ∃ i, worker = i + 1 ∧ p.workers[i]? = some x := by
  unfold worker?
  cases worker with
  | zero => simp
  | succ i => simp

theorem worker_bounds {p : Pool Job Outcome} {worker : ℕ} {x : Worker Job Outcome}
    (h : p.worker? worker = some x) : 1 ≤ worker ∧ worker ≤ p.size := by
  obtain ⟨i, rfl, hi⟩ := worker?_eq_some_iff.1 h
  obtain ⟨hlt, -⟩ := List.getElem?_eq_some_iff.1 hi
  exact ⟨Nat.succ_pos i, hlt⟩

@[simp] theorem size_setWorker (p : Pool Job Outcome) (worker : ℕ) (x : Worker Job Outcome) :
    (p.setWorker worker x).size = p.size := List.length_set

/-- What the workers have to show, in their order; each is asked with its number. -/
def gather {β : Type} (p : Pool Job Outcome) (f : ℕ → Worker Job Outcome → List β) : List β :=
  (p.workers.zipIdx 1).flatMap fun e => f e.2 e.1

theorem mem_gather {β : Type} {p : Pool Job Outcome} {f : ℕ → Worker Job Outcome → List β} {b : β} :
    b ∈ p.gather f ↔ ∃ worker x, p.worker? worker = some x ∧ b ∈ f worker x := by
  simp only [gather, List.mem_flatMap, Prod.exists, List.mk_mem_zipIdx_iff_le_and_getElem?_sub]
  constructor
  · rintro ⟨x, worker, ⟨hpos, hx⟩, hb⟩
    refine ⟨worker, x, worker?_eq_some_iff.2 ⟨worker - 1, by omega, hx⟩, hb⟩
  · rintro ⟨worker, x, hx, hb⟩
    obtain ⟨i, rfl, hi⟩ := worker?_eq_some_iff.1 hx
    exact ⟨x, i + 1, ⟨by omega, hi⟩, hb⟩

theorem perm_flatMap_set {α β : Type} {l : List α} {i n : ℕ} {x : α} (h : l[i]? = some x) (y : α)
    (f : ℕ → α → List β) :
    (((l.set i y).zipIdx n).flatMap (fun e => f e.2 e.1) ++ f (n + i) x).Perm
      ((l.zipIdx n).flatMap (fun e => f e.2 e.1) ++ f (n + i) y) := by
  classical
  induction l generalizing i n with
  | nil => simp at h
  | cons head rest ih =>
    cases i with
    | zero =>
      obtain rfl : head = x := by simpa using h
      refine List.perm_iff_count.2 fun b => ?_
      simp only [List.set_cons_zero, List.zipIdx_cons, List.flatMap_cons, Nat.add_zero,
        List.count_append]
      omega
    | succ i =>
      have rest_set := ih (n := n + 1) (i := i) (by simpa using h)
      rw [Nat.add_right_comm, Nat.add_assoc] at rest_set
      simp only [List.set_cons_succ, List.zipIdx_cons, List.flatMap_cons, List.append_assoc]
      exact rest_set.append_left _

theorem gather_setWorker {β : Type} {p : Pool Job Outcome} {worker : ℕ} {x : Worker Job Outcome}
    (h : p.worker? worker = some x) (y : Worker Job Outcome)
    (f : ℕ → Worker Job Outcome → List β) :
    ((p.setWorker worker y).gather f ++ f worker x).Perm (p.gather f ++ f worker y) := by
  obtain ⟨i, rfl, hi⟩ := worker?_eq_some_iff.1 h
  have exchanged := perm_flatMap_set (n := 1) hi y f
  rw [Nat.add_comm 1 i] at exchanged
  exact exchanged

def running (p : Pool Job Outcome) : List (ℕ × Job) := p.gather Worker.runs

def held (p : Pool Job Outcome) : List (JobResult Job Outcome) := p.gather Worker.holds

theorem mem_running {p : Pool Job Outcome} {worker : ℕ} {job : Job} :
    (worker, job) ∈ p.running ↔ p.worker? worker = some (.running job) := by
  rw [running, mem_gather]
  constructor
  · rintro ⟨w, x, hx, hmem⟩
    cases x <;> simp_all [Worker.runs]
  · intro h
    exact ⟨worker, _, h, List.mem_singleton_self _⟩

theorem mem_held {p : Pool Job Outcome} {r : JobResult Job Outcome} :
    r ∈ p.held ↔ p.worker? r.worker = some (.done r.job r.outcome) := by
  rw [held, mem_gather]
  constructor
  · rintro ⟨w, x, hx, hmem⟩
    cases x <;> simp_all [Worker.holds]
  · intro h
    exact ⟨r.worker, _, h, List.mem_singleton_self _⟩

/-- The balances between a pool and what has happened so far. -/
structure Balanced (p : Pool Job Outcome) (h : History Job Outcome) : Prop where
  offers : h.offered.Perm (h.accepted ++ h.refused ++ p.offering)
  starts : h.accepted = h.started.map Prod.snd ++ p.queue.toList
  ends : h.started.Perm (p.running ++ h.dropped ++ h.finished.map fun r => (r.worker, r.job))
  results : h.finished.Perm (p.held ++ p.results ++ h.drained)
  kept : p.cancelled = false → h.dropped = []

theorem balanced_start (size : ℕ) : (start size : Pool Job Outcome).Balanced {} := by
  have idle : ∀ worker x, (start size : Pool Job Outcome).worker? worker = some x → x = .idle := by
    intro worker x hx
    obtain ⟨i, rfl, hi⟩ := worker?_eq_some_iff.1 hx
    exact (List.mem_replicate.1 (List.mem_of_getElem? hi)).2
  have running : (start size : Pool Job Outcome).running = [] :=
    List.eq_nil_iff_forall_not_mem.2 fun e he => nomatch idle _ _ (mem_running.1 he)
  have held : (start size : Pool Job Outcome).held = [] :=
    List.eq_nil_iff_forall_not_mem.2 fun r hr => nomatch idle _ _ (mem_held.1 hr)
  refine ⟨.nil, rfl, ?_, ?_, fun _ => rfl⟩
  · rw [running]
    exact .nil
  · rw [held]
    exact .nil

theorem running_setWorker {p : Pool Job Outcome} {worker : ℕ} {x : Worker Job Outcome}
    (h : p.worker? worker = some x) (y : Worker Job Outcome) :
    ((p.setWorker worker y).running ++ x.runs worker).Perm (p.running ++ y.runs worker) :=
  gather_setWorker h y Worker.runs

theorem held_setWorker {p : Pool Job Outcome} {worker : ℕ} {x : Worker Job Outcome}
    (h : p.worker? worker = some x) (y : Worker Job Outcome) :
    ((p.setWorker worker y).held ++ x.holds worker).Perm (p.held ++ y.holds worker) :=
  gather_setWorker h y Worker.holds

/-- A balance is kept by an exchange in which what comes in at one place leaves another. -/
theorem perm_exchange {α : Type} {s l l' m n a b c d e : List α} (h : s.Perm (l ++ m ++ n))
    (exchange : (l' ++ a).Perm (l ++ b)) (h' : (c ++ a).Perm (b ++ d ++ e)) :
    (s ++ c).Perm (l' ++ (m ++ d) ++ (n ++ e)) := by
  classical
  refine List.perm_iff_count.2 fun x => ?_
  have total := h.count_eq x
  have exchanged := exchange.count_eq x
  have moved := h'.count_eq x
  simp only [List.count_append] at total exchanged moved ⊢
  omega

/-- Both balances of the workers are kept by one that changes, if what it does is noted: it starts, drops
or finishes a job or hands a result on. -/
theorem Balanced.exchange {p : Pool Job Outcome} {h : History Job Outcome} (hp : p.Balanced h)
    {worker : ℕ} {x : Worker Job Outcome} (hx : p.worker? worker = some x) (y : Worker Job Outcome)
    (started dropped : List (ℕ × Job)) (finished posted : List (JobResult Job Outcome))
    (runs : (started ++ x.runs worker).Perm
      (y.runs worker ++ dropped ++ finished.map fun r => (r.worker, r.job)))
    (holds : (finished ++ x.holds worker).Perm (y.holds worker ++ posted ++ [])) :
    (h.started ++ started).Perm ((p.setWorker worker y).running ++ (h.dropped ++ dropped) ++
      (h.finished ++ finished).map fun r => (r.worker, r.job)) ∧
    (h.finished ++ finished).Perm
      ((p.setWorker worker y).held ++ (p.results ++ posted) ++ h.drained) := by
  have results := perm_exchange hp.results (held_setWorker hx y) holds
  rw [List.append_nil] at results
  rw [List.map_append]
  exact ⟨perm_exchange hp.ends (running_setWorker hx y) runs, results⟩

theorem balanced_step {p p' : Pool Job Outcome} {h : History Job Outcome} {a : Action Job Outcome}
    (hp : p.Balanced h) (step : p.Step a p') : p'.Balanced (h.note p a) := by
  -- the dispatcher's steps move one balance each, those of a worker both of the workers' balances
  classical
  have ⟨offers, starts, ends, results, kept⟩ := hp
  cases step with
  | @offer job dispatcher =>
    have none : p.offering = [] := by rw [offering, dispatcher]
    rw [none, List.append_nil] at offers
    exact ⟨offers.append_right [job], starts, ends, results, kept⟩
  | @enqueue job dispatcher queue cancelled =>
    have waiting : p.offering = [job] := by rw [offering, dispatcher]
    rw [waiting] at offers
    rw [queue, Option.toList_none, List.append_nil] at starts
    rw [History.note, waiting]
    refine ⟨offers.trans ?_, congrArg (· ++ [job]) starts, ends, results, kept⟩
    simp only [offering, List.append_assoc, List.append_nil]
    exact List.perm_append_comm.append_left _
  | @giveUp job dispatcher cancelled =>
    have waiting : p.offering = [job] := by rw [offering, dispatcher]
    rw [waiting] at offers
    rw [History.note, waiting]
    exact ⟨by simpa [offering] using offers, starts, ends, results, kept⟩
  | @drain result rest hresults cancelled =>
    rw [hresults] at results
    rw [History.note, hresults]
    refine ⟨offers, starts, ends, results.trans (List.perm_iff_count.2 fun r => ?_), kept⟩
    simp only [List.count_append, List.count_cons, List.take_succ_cons, List.take_zero,
      List.count_nil]
    have same : held { p with results := rest } = p.held := rfl
    rw [same]
    omega
  | wait idle receiver => exact ⟨offers, starts, ends, results, kept⟩
  | @take worker job idle queue cancelled free =>
    rw [queue] at starts
    rw [History.note, queue]
    obtain ⟨ends, results⟩ :=
      hp.exchange idle (.running job) [(worker, job)] [] [] [] (.refl _) (.refl _)
    simp only [List.append_nil] at ends results
    exact ⟨offers, by simpa using starts, ends, results, kept⟩
  | @finish worker job outcome running cancelled =>
    have ran : p.runsAt worker = [(worker, job)] := by rw [runsAt, running]; rfl
    rw [History.note, ran]
    obtain ⟨ends, results⟩ :=
      hp.exchange running (.done job outcome) [] [] [⟨worker, job, outcome⟩] [] (.refl _) (.refl _)
    simp only [List.append_nil] at ends results
    exact ⟨offers, starts, ends, results, kept⟩
  | @report worker job outcome done room =>
    obtain ⟨ends, results⟩ :=
      hp.exchange done .idle [] [] [] [⟨worker, job, outcome⟩] (.refl _) (.refl _)
    simp only [List.append_nil] at ends results
    exact ⟨offers, starts, ends, results, kept⟩
  | @stopIdle worker idle cancelled =>
    have ran : p.runsAt worker = [] := by rw [runsAt, idle]; rfl
    rw [History.note, ran, List.append_nil]
    obtain ⟨ends, results⟩ := hp.exchange idle .stopped [] [] [] [] (.refl _) (.refl _)
    simp only [List.append_nil] at ends results
    exact ⟨offers, starts, ends, results, kept⟩
  | @stopRunning worker job running cancelled =>
    have ran : p.runsAt worker = [(worker, job)] := by rw [runsAt, running]; rfl
    rw [History.note, ran]
    obtain ⟨ends, results⟩ :=
      hp.exchange running .stopped [] [(worker, job)] [] [] (.refl _) (.refl _)
    simp only [List.append_nil] at ends results
    exact ⟨offers, starts, ends, results, fun h => absurd (cancelled.symm.trans h) nofun⟩
  | cancel => exact ⟨offers, starts, ends, results, nofun⟩

theorem size_step {p p' : Pool Job Outcome} {a : Action Job Outcome} (step : p.Step a p') :
    p'.size = p.size := by
  cases step <;> first | rfl | exact size_setWorker _ _ _

theorem started_note {p p' : Pool Job Outcome} {a : Action Job Outcome} (step : p.Step a p')
    (h : History Job Outcome) :
    (h.note p a).started = h.started ∨ p.cancelled = false ∧
      ∃ worker job, (h.note p a).started = h.started ++ [(worker, job)] ∧
        1 ≤ worker ∧ worker ≤ p.size := by
  cases step with
  | @take worker job idle queue cancelled free =>
    refine Or.inr ⟨cancelled, worker, job, ?_, worker_bounds idle⟩
    rw [History.note, queue]
    rfl
  | _ => exact Or.inl rfl

theorem started_bounds {size : ℕ} {actions : List (Action Job Outcome)} {p : Pool Job Outcome}
    {h : History Job Outcome} (run : (start size).run? {} actions = some (p, h)) :
    p.size = max size 1 ∧ ∀ e ∈ h.started, 1 ≤ e.1 ∧ e.1 ≤ p.size := by
  refine run?_induct (P := fun q g => q.size = max size 1 ∧ ∀ e ∈ g.started, 1 ≤ e.1 ∧ e.1 ≤ q.size)
    run ⟨List.length_replicate, fun e he => absurd he List.not_mem_nil⟩ ?_
  rintro p p' h a ⟨hsize, hstarted⟩ step
  rw [size_step step]
  refine ⟨hsize, fun e he => ?_⟩
  rcases started_note step h with same | ⟨-, worker, job, added, bounds⟩
  · exact hstarted e (same ▸ he)
  · rw [added, List.mem_append, List.mem_singleton] at he
    rcases he with he | rfl
    · exact hstarted e he
    · exact bounds

theorem started_of_cancelled {p p' : Pool Job Outcome} {h h' : History Job Outcome}
    {actions : List (Action Job Outcome)} (hp : p.cancelled = true)
    (run : p.run? h actions = some (p', h')) : p'.cancelled = true ∧ h'.started = h.started := by
  refine run?_induct (P := fun q g => q.cancelled = true ∧ g.started = h.started) run ⟨hp, rfl⟩ ?_
  rintro q q' g a ⟨hcancelled, hstarted⟩ step
  refine ⟨by cases step <;> first | rfl | assumption, ?_⟩
  rcases started_note step g with same | ⟨running, -⟩
  · exact same.trans hstarted
  · exact absurd (hcancelled.symm.trans running) nofun

theorem length_running_le (p : Pool Job Outcome) : p.running.length ≤ p.size := by
  have one (l : List (Worker Job Outcome × ℕ)) :
      (l.flatMap fun e => e.1.runs e.2).length ≤ l.length := by
    induction l with
    | nil => exact Nat.le_refl 0
    | cons e l ih =>
      have : (e.1.runs e.2).length ≤ 1 := by cases e.1 <;> simp [Worker.runs]
      rw [List.flatMap_cons, List.length_append, List.length_cons]
      omega
  exact Nat.le_trans (one _) (Nat.le_of_eq List.length_zipIdx)

end Pool

/-- Where a job that was handed over can be: in the queue, with a worker that runs it or has finished
it, or on its way back with its outcome. -/
inductive Place (Outcome : Type)
  | queued
  | running (worker : ℕ)
  | held (worker : ℕ) (outcome : Outcome)
  | posted (worker : ℕ) (outcome : Outcome)
  | drained (worker : ℕ) (outcome : Outcome)

namespace Pool

def At (p : Pool Job Outcome) (h : History Job Outcome) (job : Job) : Place Outcome → Prop
  | .queued => p.queue = some job
  | .running worker => p.worker? worker = some (.running job)
  | .held worker outcome => p.worker? worker = some (.done job outcome)
  | .posted worker outcome => ⟨worker, job, outcome⟩ ∈ p.results
  | .drained worker outcome => ⟨worker, job, outcome⟩ ∈ h.drained

def placed (p : Pool Job Outcome) (h : History Job Outcome) : List (Job × Place Outcome) :=
  p.queue.toList.map (·, .queued) ++ p.running.map (fun e => (e.2, .running e.1)) ++
    p.held.map (fun r => (r.job, .held r.worker r.outcome)) ++
    p.results.map (fun r => (r.job, .posted r.worker r.outcome)) ++
    h.drained.map fun r => (r.job, .drained r.worker r.outcome)

theorem exists_result_iff {rs : List (JobResult Job Outcome)} {worker : ℕ} {job : Job}
    {outcome : Outcome} :
    (∃ r ∈ rs, r.job = job ∧ r.worker = worker ∧ r.outcome = outcome) ↔
      ⟨worker, job, outcome⟩ ∈ rs := by
  constructor
  · rintro ⟨r, hr, rfl, rfl, rfl⟩
    exact hr
  · intro hr
    exact ⟨_, hr, rfl, rfl, rfl⟩

theorem mem_placed_iff {p : Pool Job Outcome} {h : History Job Outcome} {job : Job}
    {place : Place Outcome} : (job, place) ∈ p.placed h ↔ p.At h job place := by
  simp only [placed, List.mem_append, List.mem_map, Prod.mk.injEq]
  cases place with
  | queued => simp [At]
  | running worker => simp [At, ← mem_running]
  | held worker outcome =>
    have := mem_held (p := p) (r := ⟨worker, job, outcome⟩)
    simp [At, exists_result_iff, this]
  | posted worker outcome => simp [At, exists_result_iff]
  | drained worker outcome => simp [At, exists_result_iff]

/-- Before the pool is cancelled the places hold what was handed over, each job as often as it was. -/
theorem accepted_perm_placed {p : Pool Job Outcome} {h : History Job Outcome} (hp : p.Balanced h)
    (hc : p.cancelled = false) : h.accepted.Perm ((p.placed h).map Prod.fst) := by
  have started : (h.started.map Prod.snd).Perm (p.running.map Prod.snd ++
      (p.held ++ p.results ++ h.drained).map JobResult.job) := by
    have ends := hp.ends.map Prod.snd
    have finished := hp.results.map JobResult.job
    rw [hp.kept hc, List.append_nil, List.map_append, List.map_map] at ends
    exact ends.trans (finished.append_left _)
  rw [hp.starts]
  refine List.perm_append_comm.trans ((started.append_left _).trans (.of_eq ?_))
  simp [placed, Function.comp_def]

end Pool

/-- A pool neither loses nor doubles a job, whatever its dispatcher and its workers do in whatever
order. Until it is cancelled the jobs that were handed over are those in its places, so one that was
offered only once is in exactly one place. Jobs are started in the order in which they were handed
over and no others are, each by a worker of the pool; every result that was drained is the outcome
that its worker came to. Once the pool is cancelled nothing is started any more. -/
theorem jobs_are_in_one_place {size : ℕ} {actions : List (Pool.Action Job Outcome)}
    {p : Pool Job Outcome} {h : Pool.History Job Outcome}
    (run : (Pool.start size).run? {} actions = some (p, h)) :
    (p.cancelled = false → h.accepted.Perm ((p.placed h).map Prod.fst) ∧
      (h.offered.Nodup → ∀ job ∈ h.accepted, ∃! place, p.At h job place)) ∧
    p.size = max size 1 ∧ p.running.length ≤ p.size ∧
    (∀ r ∈ h.drained, 1 ≤ r.worker ∧ r.worker ≤ p.size ∧ (r.worker, r.job) ∈ h.started ∧
      r ∈ h.finished) ∧
    h.accepted = h.started.map Prod.snd ++ p.queue.toList ∧
    (h.offered.Nodup → ∀ job ∈ h.refused, ∀ worker, (worker, job) ∉ h.started) ∧
    (p.cancelled = true → ∀ later p' h', p.run? h later = some (p', h') →
      h'.started = h.started) := by
  have hp := Pool.run?_induct run (Pool.balanced_start size) Pool.balanced_step
  obtain ⟨hsize, hstarted⟩ := Pool.started_bounds run
  have apart (distinct : h.offered.Nodup) : (h.accepted ++ h.refused).Nodup :=
    (hp.offers.nodup_iff.1 distinct).of_append_left
  refine ⟨fun hc => ⟨Pool.accepted_perm_placed hp hc, fun distinct job hjob => ?_⟩, hsize,
    p.length_running_le, fun r hr => ?_, hp.starts, fun distinct job hjob worker hworker => ?_,
    fun hc later p' h' rest => (Pool.started_of_cancelled hc rest).2⟩
  · have placed := Pool.accepted_perm_placed hp hc
    have once := placed.nodup_iff.1 (apart distinct).of_append_left
    obtain ⟨⟨_, place⟩, hplace, rfl⟩ := List.mem_map.1 (placed.subset hjob)
    refine ⟨place, Pool.mem_placed_iff.1 hplace, fun other hother => ?_⟩
    have same := List.inj_on_of_nodup_map once (Pool.mem_placed_iff.2 hother) hplace rfl
    exact congrArg Prod.snd same
  · have finished : r ∈ h.finished := hp.results.symm.subset (List.mem_append_right _ hr)
    have started : (r.worker, r.job) ∈ h.started :=
      hp.ends.symm.subset (List.mem_append_right _ (List.mem_map_of_mem finished))
    exact ⟨(hstarted _ started).1, (hstarted _ started).2, started, finished⟩
  · have accepted : job ∈ h.accepted := by
      rw [hp.starts]
      exact List.mem_append_left _ (List.mem_map_of_mem hworker)
    exact List.disjoint_of_nodup_append (apart distinct) accepted hjob

/-- Two workers: one job runs, one has come back and one is in the queue. A fourth is refused once the
pool is cancelled, and the one in the queue is not started either. -/
theorem jobs_are_in_one_place_around_cancellation :
    ∃ (p : Pool String Bool) (h : Pool.History String Bool),
      (Pool.start 2).run? {} [.offer "a", .enqueue, .wait 2, .take 2, .offer "b", .enqueue, .take 1,
        .finish 1 true, .report 1, .offer "c", .drain, .enqueue] = some (p, h) ∧
      p.cancelled = false ∧ h.offered.Nodup ∧ (∀ job ∈ h.accepted, ∃! place, p.At h job place) ∧
      p.At h "a" (.running 2) ∧ p.At h "b" (.drained 1 true) ∧ p.At h "c" .queued ∧
      ∃ p' h', p.run? h [.cancel, .offer "d", .giveUp] = some (p', h') ∧ p'.cancelled = true ∧
        h'.refused = ["d"] ∧ ∀ q g, p'.run? h' [.stop 1, .stop 2] = some (q, g) →
          g.started = h'.started ∧ ∀ worker, (worker, "d") ∉ h'.started := by
  have run : (Pool.start 2 : Pool String Bool).run? {} [.offer "a", .enqueue, .wait 2, .take 2,
    .offer "b", .enqueue, .take 1, .finish 1 true, .report 1, .offer "c", .drain, .enqueue] =
      some (_, _) := rfl
  have later : (Pool.start 2 : Pool String Bool).run? {} [.offer "a", .enqueue, .wait 2, .take 2,
    .offer "b", .enqueue, .take 1, .finish 1 true, .report 1, .offer "c", .drain, .enqueue, .cancel,
    .offer "d", .giveUp] = some (_, _) := rfl
  obtain ⟨-, -, -, -, -, refused, cancelled⟩ := jobs_are_in_one_place later
  refine ⟨_, _, run, rfl, by decide, ((jobs_are_in_one_place run).1 rfl).2 (by decide), rfl,
    List.mem_singleton_self _, rfl, _, _, rfl, rfl, rfl, fun q g rest => ?_⟩
  exact ⟨cancelled rfl _ _ _ rest, refused (by decide) "d" (List.mem_singleton_self _)⟩

end Telemetry.Agent
