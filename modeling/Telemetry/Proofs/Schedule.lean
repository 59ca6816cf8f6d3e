import Telemetry.Agent.Reporter
import Telemetry.Collector.Session
import Telemetry.Proofs.Interval
import Telemetry.Proofs.Pool
import Telemetry.Proofs.Shutdown

/-! Which intervals can be scheduled. Every interval that a program accepts is shorter than two to the
sixty-fourth seconds, and the clock ends at two to the sixty-third. An interval whose first deadline
lies before that end has its backups saved to the last one and its reports asked for whenever they are
due. One whose first deadline does not is accepted all the same: then no backup is saved, although
all requests are answered, and no report is sent. -/

namespace Telemetry

namespace Agent

namespace Reporter

variable {Job Outcome : Type} {r r' : Reporter Job Outcome} {actions : List (Action Job Outcome)}

/-- What an action does, with all that it asks for. -/
inductive Step (r : Reporter Job Outcome) : Action Job Outcome → Reporter Job Outcome → Prop
  | pass {span : Duration} : Step r (.pass span) { r with now := r.now + span.nanos }
  | report {job : Job} {pool : Pool Job Outcome} (stage : r.stage = .waiting)
    (cancelled : r.pool.cancelled = false) (due : r.due ≤ r.now)
    (offer : r.pool.Step (.offer job) pool) :
    Step r (.report job) { r with due := r.now + r.interval.nanos, pool, stage := .offering }
  | handOver {pool : Pool Job Outcome} (stage : r.stage = .offering)
    (enqueue : r.pool.Step .enqueue pool) : Step r .handOver { r with pool, stage := .waiting }
  | giveUp {pool : Pool Job Outcome} (stage : r.stage = .offering)
    (giveUp : r.pool.Step .giveUp pool) : Step r .giveUp { r with pool, stage := .stopped }
  | leave (stage : r.stage = .waiting) (cancelled : r.pool.cancelled = true) :
    Step r .leave { r with stage := .stopped }
  | work {a : Pool.Action Job Outcome} {pool : Pool Job Outcome} (ha : isDispatch a = false)
    (step : r.pool.Step a pool) : Step r (.work a) { r with pool }

theorem advance_eq_some_iff {a : Pool.Action Job Outcome} {stage : Stage} :
    r.advance a stage = some r' ↔ ∃ pool, r.pool.Step a pool ∧ { r with pool, stage } = r' := by
  simp only [advance, Option.map_eq_some_iff, Pool.step?_eq_some_iff]

theorem step?_eq_some_iff {a : Action Job Outcome} : r.step? a = some r' ↔ r.Step a r' := by
  constructor
  · intro h
    cases a with
    | pass span =>
      obtain rfl := Option.some.inj h
      exact .pass
    | report job =>
      simp only [step?, Option.ite_none_right_eq_some, advance_eq_some_iff] at h
      obtain ⟨⟨stage, cancelled, due⟩, pool, offer, rfl⟩ := h
      exact .report stage cancelled due offer
    | handOver =>
      simp only [step?, Option.ite_none_right_eq_some, advance_eq_some_iff] at h
      obtain ⟨stage, pool, enqueue, rfl⟩ := h
      exact .handOver stage enqueue
    | giveUp =>
      simp only [step?, Option.ite_none_right_eq_some, advance_eq_some_iff] at h
      obtain ⟨stage, pool, giveUp, rfl⟩ := h
      exact .giveUp stage giveUp
    | leave =>
      simp only [step?, Option.ite_none_right_eq_some, Option.some.injEq] at h
      obtain ⟨⟨stage, cancelled⟩, rfl⟩ := h
      exact .leave stage cancelled
    | work a =>
      simp only [step?, Option.ite_none_left_eq_some, advance_eq_some_iff] at h
      obtain ⟨ha, pool, step, rfl⟩ := h
      exact .work (Bool.eq_false_of_not_eq_true ha) step
  · intro h
    cases h with
    | pass => rfl
    | report stage cancelled due offer =>
      rw [step?, if_pos ⟨stage, cancelled, due⟩, advance_eq_some_iff]
      exact ⟨_, offer, rfl⟩
    | handOver stage enqueue =>
      rw [step?, if_pos stage, advance_eq_some_iff]
      exact ⟨_, enqueue, rfl⟩
    | giveUp stage giveUp =>
      rw [step?, if_pos stage, advance_eq_some_iff]
      exact ⟨_, giveUp, rfl⟩
    | leave stage cancelled => rw [step?, if_pos ⟨stage, cancelled⟩]
    | work ha step =>
      rw [step?, if_neg (Bool.eq_false_iff.1 ha), advance_eq_some_iff]
      exact ⟨_, step, rfl⟩

theorem aborted_run (h : r.stage = .aborted) (run : RunsTo step? r actions r') :
    r'.stage = .aborted ∧ ∀ job, .report job ∉ actions := by
  induction run with
  | start => exact ⟨h, nofun⟩
  | step run step ih =>
    obtain ⟨aborted, none⟩ := ih
    cases step?_eq_some_iff.1 step with
    | pass => exact ⟨aborted, by simpa using none⟩
    | work _ _ => exact ⟨aborted, by simpa using none⟩
    | report stage _ _ _ => exact nomatch aborted.symm.trans stage
    | handOver stage _ => exact nomatch aborted.symm.trans stage
    | giveUp stage _ => exact nomatch aborted.symm.trans stage
    | leave stage _ => exact nomatch aborted.symm.trans stage

/-- The loop and the dispatcher of its pool agree on whether a report waits to be handed over. -/
def Agrees (r : Reporter Job Outcome) : Prop :=
  match r.stage with
  | .waiting => r.pool.dispatcher = .ready
  | .offering => ∃ job, r.pool.dispatcher = .offering job
  | .stopped => True
  | .aborted => False

theorem dispatcher_step {p p' : Pool Job Outcome} {a : Pool.Action Job Outcome}
    (ha : isDispatch a = false) (step : p.Step a p') : p'.dispatcher = p.dispatcher := by
  cases step with
  | offer _ => exact nomatch ha
  | enqueue _ _ _ => exact nomatch ha
  | giveUp _ _ => exact nomatch ha
  | _ => rfl

theorem agrees_step {a : Action Job Outcome} (h : r.Agrees) (step : r.Step a r') : r'.Agrees := by
  cases step with
  | pass => exact h
  | report _ _ _ offer =>
    cases offer with
    | offer _ => exact ⟨_, rfl⟩
  | handOver _ enqueue =>
    cases enqueue with
    | enqueue _ _ _ => exact rfl
  | giveUp _ _ => trivial
  | leave _ _ => trivial
  | work ha step =>
    rw [Agrees, dispatcher_step ha step]
    exact h

theorem agrees_run (h : r.Agrees) (run : RunsTo step? r actions r') : r'.Agrees := by
  induction run with
  | start => exact h
  | step _ step ih => exact agrees_step ih (step?_eq_some_iff.1 step)

theorem exists_report (h : r.Agrees) (waiting : r.stage = .waiting)
    (cancelled : r.pool.cancelled = false) (due : r.due ≤ r.now) (job : Job) :
    ∃ r', r.step? (.report job) = some r' := by
  rw [Agrees, waiting] at h
  exact ⟨_, step?_eq_some_iff.2 (.report waiting cancelled due (.offer h))⟩

theorem exists_handOver (h : r.Agrees) (offering : r.stage = .offering)
    (cancelled : r.pool.cancelled = false) (free : r.pool.queue = none) :
    ∃ r', r.step? .handOver = some r' := by
  rw [Agrees, offering] at h
  obtain ⟨job, dispatcher⟩ := h
  exact ⟨_, step?_eq_some_iff.2 (.handOver offering (.enqueue dispatcher free cancelled))⟩

/-- Once its pool is cancelled the loop stops with its next step. -/
theorem exists_stop (h : r.Agrees) (cancelled : r.pool.cancelled = true)
    (running : r.stage ≠ .stopped) :
    ∃ (a : Action Job Outcome) (r' : Reporter Job Outcome),
      r.step? a = some r' ∧ r'.stage = .stopped := by
  simp only [step?_eq_some_iff]
  cases stage : r.stage with
  | waiting => exact ⟨.leave, _, .leave stage cancelled, rfl⟩
  | offering =>
    rw [Agrees, stage] at h
    obtain ⟨job, dispatcher⟩ := h
    exact ⟨.giveUp, _, .giveUp stage (.giveUp dispatcher cancelled), rfl⟩
  | stopped => exact absurd stage running
  | aborted =>
    rw [Agrees, stage] at h
    exact h.elim

/-- Whatever happens to a loop, it asks for each report that is due and hands it over once the queue
is free, until it is cancelled, and then it stops. -/
structure Reports (r : Reporter Job Outcome) : Prop where
  runs : ∀ actions r', RunsTo step? r actions r' → r'.stage ≠ .aborted
  asks : ∀ actions r' job, RunsTo step? r actions r' → r'.stage = .waiting →
    r'.pool.cancelled = false → r'.due ≤ r'.now → ∃ r'', r'.step? (.report job) = some r''
  handsOver : ∀ actions r', RunsTo step? r actions r' → r'.stage = .offering →
    r'.pool.cancelled = false → r'.pool.queue = none → ∃ r'', r'.step? .handOver = some r''
  ends : ∀ actions r', RunsTo step? r actions r' → r'.pool.cancelled = true →
    r'.stage ≠ .stopped → ∃ (a : Action Job Outcome) (r'' : Reporter Job Outcome),
      r'.step? a = some r'' ∧ r''.stage = .stopped

/-- Whatever happens to a loop, no report is ever asked for. -/
def NeverReports (r : Reporter Job Outcome) : Prop :=
  ∀ actions r', RunsTo step? r actions r' → r'.stage = .aborted ∧ ∀ job, .report job ∉ actions

theorem reports (h : r.Agrees) : r.Reports where
  runs _ r' run haborted := by
    have agrees := agrees_run h run
    rwa [Agrees, haborted] at agrees
  asks _ _ job run waiting cancelled due := exists_report (agrees_run h run) waiting cancelled due job
  handsOver _ _ run offering cancelled free :=
    exists_handOver (agrees_run h run) offering cancelled free
  ends _ _ run cancelled running := exists_stop (agrees_run h run) cancelled running

theorem stage_start (workers : ℕ) (interval : Duration) (now : ℕ) :
    (start workers interval now : Reporter Job Outcome).stage =
      if now + interval.nanos < Backup.horizon then .waiting else .aborted := rfl

theorem reports_start {workers : ℕ} {interval : Duration} {now : ℕ}
    (h : now + interval.nanos < Backup.horizon) :
    (start workers interval now : Reporter Job Outcome).Reports := by
  refine reports ?_
  rw [Agrees, stage_start, if_pos h]
  rfl

theorem neverReports_start {workers : ℕ} {interval : Duration} {now : ℕ}
    (h : Backup.horizon ≤ now + interval.nanos) :
    (start workers interval now : Reporter Job Outcome).NeverReports :=
  fun _ _ => aborted_run (by rw [stage_start, if_neg (Nat.not_lt.2 h)])

end Reporter
end Agent

namespace Collector

variable {c : Config} {receiver : Frame.Receiver} {disk : Disk} {s : Store}
  {requests : List Http.Request}

/-- The requests as they are answered in a run that is backed up. -/
def answered (c : Config) (receiver : Frame.Receiver) (disk : Disk) (s : Store)
    (requests : List Http.Request) : Repository × List Http.Response :=
  respondAll receiver (.make (restored c disk.directory s)) requests

/-- The service at the end of the requests, before it is cancelled. -/
def backedUp (c : Config) (receiver : Frame.Receiver) (disk : Disk) (s : Store)
    (requests : List Http.Request) : Backup.Service :=
  { Backup.Service.start (restored c disk.directory s) disk.directory c.storeFile.value c.backupMode 0
    with store := (answered c receiver disk s requests).1.store }

theorem runBackedUp_eq : runBackedUp c receiver disk s requests =
    ⟨disk.withDirectory (backedUp c receiver disk s requests).close.directory,
      (answered c receiver disk s requests).2,
      if (backedUp c receiver disk s requests).close.isStopped then none else some .backup⟩ := rfl

theorem runBackedUp_of_lt (h : c.storeInterval.value.nanos < Backup.horizon) :
    runBackedUp c receiver disk s requests =
      ⟨disk.withDirectory (Backup.saveStore (answered c receiver disk s requests).1.store
        c.storeFile.value disk.directory).1, (answered c receiver disk s requests).2, none⟩ := by
  have waiting : (backedUp c receiver disk s requests).phase = .waiting :=
    Backup.Service.waiting_start (by rwa [Nat.zero_add])
  rw [runBackedUp_eq, Backup.Service.close_of_waiting waiting]
  rfl

theorem runBackedUp_of_ge (h : Backup.horizon ≤ c.storeInterval.value.nanos) :
    runBackedUp c receiver disk s requests =
      ⟨disk, (answered c receiver disk s requests).2, some .backup⟩ := by
  have aborted : (backedUp c receiver disk s requests).phase = .aborted :=
    Backup.Service.aborted_start (by decide) (by rwa [Nat.zero_add])
  have unstopped : (backedUp c receiver disk s requests).close.isStopped = false := by
    rw [Backup.Service.close_of_aborted aborted, Backup.Service.isStopped, aborted]
  rw [runBackedUp_eq, unstopped, Backup.Service.close_of_aborted aborted]
  rfl

/-- What becomes of the backups of a collector, by its interval and by the time it starts at. A whole
run starts at zero. -/
structure Config.Scheduled (c : Config) : Prop where
  inReach : ∀ store directory path now, now + c.storeInterval.value.nanos < Backup.horizon →
    (Backup.Service.start store directory path c.backupMode now).EndsSaved
  beyond : ∀ store directory path now, now < Backup.horizon →
    Backup.horizon ≤ now + c.storeInterval.value.nanos →
      (Backup.Service.start store directory path c.backupMode now).NeverSaves
  run : ∀ receiver disk s requests, runBackedUp c receiver disk s requests =
    let (r, responses) := answered c receiver disk s requests
    if c.storeInterval.value.nanos < Backup.horizon then
      ⟨disk.withDirectory (Backup.saveStore r.store c.storeFile.value disk.directory).1, responses,
        none⟩
    else ⟨disk, responses, some .backup⟩

theorem Config.scheduled (c : Config) : c.Scheduled where
  inReach _ _ _ _ h := Backup.Service.endsSaved (Backup.Service.waiting_start h) rfl
  beyond _ _ _ _ hnow h := Backup.Service.neverSaves (Backup.Service.aborted_start hnow h)
  run receiver disk s requests := by
    by_cases h : c.storeInterval.value.nanos < Backup.horizon
    · rw [runBackedUp_of_lt h]
      exact (if_pos h).symm
    · rw [runBackedUp_of_ge (Nat.not_lt.1 h)]
      exact (if_neg h).symm

end Collector

/-- What becomes of the reports of an agent, by its interval and by the time it starts at. -/
structure Agent.Config.Scheduled (c : Config) : Prop where
  inReach : ∀ (Job Outcome : Type) now, now + c.reportInterval.value.nanos < Backup.horizon →
    (c.reporter now : Reporter Job Outcome).Reports
  beyond : ∀ (Job Outcome : Type) now, Backup.horizon ≤ now + c.reportInterval.value.nanos →
    (c.reporter now : Reporter Job Outcome).NeverReports

theorem Agent.Config.scheduled (c : Config) : c.Scheduled where
  inReach _ _ _ h := Reporter.reports_start h
  beyond _ _ _ h := Reporter.neverReports_start h

/-- An accepted interval is shorter than two to the sixty-fourth seconds, wherever it comes from. If
its first deadline can be told the backups end with a last save and the reports are asked for;
otherwise, which nothing checks, the requests are answered and nothing is saved, and nothing is
reported. -/
theorem intervals_in_reach_are_scheduled {args : List String} {d : Directory} {env : Environment} :
    (∀ o c, Collector.Options.parse args = .ok o → Collector.Config.resolve d o env = .ok c →
      c.storeInterval.value.Short ∧ c.Scheduled) ∧
    (∀ o c, Agent.Options.parse args = .ok o → Agent.Config.resolve d o env = .ok c →
      c.reportInterval.value.Short ∧ c.Scheduled) :=
  ⟨fun _ c hargs h => ⟨Collector.Config.short_storeInterval hargs h, c.scheduled⟩,
    fun _ c hargs h => ⟨Agent.Config.short_reportInterval hargs h, c.scheduled⟩⟩

/-- Two to the sixty-third seconds are accepted by both programs. The collector answers a write and
loses it, and the agent never reports. -/
theorem unreachable_intervals_are_accepted :
    let d : Directory := ⟨[], [""]⟩
    (∃ o c r, Collector.Options.parse ["-i", "9223372036854775808"] = .ok o ∧
      Collector.Config.resolve d o ⟨[], ""⟩ = .ok c ∧ c.storeInterval.value.Short ∧
      Collector.run c ⟨d, []⟩ [⟨"POST", "/update/counter/hits/1", [], .empty⟩] = r ∧
      r.responses.map (·.status) = [200] ∧ r.disk.directory.files = [] ∧
      r.failure = some .backup) ∧
    ∃ o c, Agent.Options.parse ["-r", "9223372036854775808"] = .ok o ∧
      Agent.Config.resolve d o ⟨[], ""⟩ = .ok c ∧ c.reportInterval.value.Short ∧
      (c.reporter 0 : Agent.Reporter ℕ ℕ).NeverReports := by
  intro d
  have long : Backup.horizon ≤ (Duration.ofSeconds (2 ^ 63)).nanos := by decide
  constructor
  · have hargs : Collector.Options.parse ["-i", "9223372036854775808"] =
        .ok { storeInterval := some (.ofSeconds (2 ^ 63)) } := by rfl
    obtain ⟨c, h, hinterval, hrun, hanswered⟩ : ∃ c,
        Collector.Config.resolve d { storeInterval := some (.ofSeconds (2 ^ 63)) } ⟨[], ""⟩ = .ok c ∧
        c.storeInterval.value = .ofSeconds (2 ^ 63) ∧
        Collector.run c ⟨d, []⟩ [⟨"POST", "/update/counter/hits/1", [], .empty⟩] =
          Collector.runBackedUp c ⟨none, none⟩ ⟨d, []⟩ (.memory .empty)
            [⟨"POST", "/update/counter/hits/1", [], .empty⟩] ∧
        (Collector.answered c ⟨none, none⟩ ⟨d, []⟩ (.memory .empty)
          [⟨"POST", "/update/counter/hits/1", [], .empty⟩]).2.map (·.status) = [200] :=
      ⟨_, rfl, rfl, rfl, rfl⟩
    obtain ⟨short, scheduled⟩ := intervals_in_reach_are_scheduled.1 _ c hargs h
    rw [scheduled.run, hinterval] at hrun
    exact ⟨_, c, _, hargs, h, short, hrun, hanswered, rfl, rfl⟩
  · have hargs : Agent.Options.parse ["-r", "9223372036854775808"] =
        .ok { reportInterval := some (.ofSeconds (2 ^ 63)) } := by rfl
    obtain ⟨c, h, hinterval⟩ : ∃ c,
        Agent.Config.resolve d { reportInterval := some (.ofSeconds (2 ^ 63)) } ⟨[], ""⟩ = .ok c ∧
        c.reportInterval.value = .ofSeconds (2 ^ 63) := ⟨_, rfl, rfl⟩
    obtain ⟨short, scheduled⟩ := intervals_in_reach_are_scheduled.2 _ c hargs h
    exact ⟨_, c, hargs, h, short, scheduled.beyond _ _ 0 (by rwa [hinterval, Nat.zero_add])⟩

end Telemetry
