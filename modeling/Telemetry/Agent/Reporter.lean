import Telemetry.Agent.Config
import Telemetry.Agent.Pool
import Telemetry.Backup.Task

/-!
The loop of an agent that asks for reports. A clock asks for one when an interval has passed since the
start, and for another when one has passed since it asked; the loop hands it to the pool before it
looks at the clock again. Once the pool is cancelled the loop gives up what it has not handed over and
stops. The workers do their steps in between, in any order (`Reporter.step?`).
-/

namespace Telemetry.Agent

/-- What the loop is doing. -/
inductive Stage
  | waiting
  /-- A report has not been handed over yet. -/
  | offering
  | stopped
  /-- The loop could not even start. -/
  | aborted
deriving DecidableEq

structure Reporter (Job Outcome : Type) where
  pool : Pool Job Outcome
  interval : Duration
  /-- The time, in nanoseconds, and the next time that the clock asks for a report. -/
  now : Nat
  due : Nat
  stage : Stage

namespace Reporter

variable {Job Outcome : Type}

inductive Action (Job Outcome : Type)
  | pass (span : Duration)
  /-- The clock asks for a report. -/
  | report (job : Job)
  | handOver
  | giveUp
  | leave
  | work (action : Pool.Action Job Outcome)

/-- A loop with its workers, whose first deadline has to be a time that can be told. -/
def start (workers : Nat) (interval : Duration) (now : Nat) : Reporter Job Outcome :=
  let due := now + interval.nanos
  { pool := .start workers, interval, now, due,
    stage := if due < Backup.horizon then .waiting else .aborted }

/-- Whether only the loop itself does such a step. -/
def isDispatch : Pool.Action Job Outcome → Bool
  | .offer _ | .enqueue | .giveUp => true
  | _ => false

/-- The loop in another stage, if the pool can take the step. -/
def advance (r : Reporter Job Outcome) (action : Pool.Action Job Outcome) (stage : Stage) :
    Option (Reporter Job Outcome) :=
  (r.pool.step? action).map fun pool => { r with pool, stage }

/-- The loop after a step, if the step can be taken. -/
def step? (r : Reporter Job Outcome) : Action Job Outcome → Option (Reporter Job Outcome)
  | .pass span => some { r with now := r.now + span.nanos }
  | .report job =>
    if r.stage = .waiting ∧ r.pool.cancelled = false ∧ r.due ≤ r.now then
      { r with due := r.now + r.interval.nanos }.advance (.offer job) .offering
    else none
  | .handOver => if r.stage = .offering then r.advance .enqueue .waiting else none
  | .giveUp => if r.stage = .offering then r.advance .giveUp .stopped else none
  | .leave =>
    if r.stage = .waiting ∧ r.pool.cancelled = true then some { r with stage := .stopped } else none
  | .work action => if isDispatch action then none else r.advance action r.stage

end Reporter

/-- The loop that a configuration asks for. -/
def Config.reporter {Job Outcome : Type} (c : Config) (now : Nat) : Reporter Job Outcome :=
  .start c.rateLimit.value c.reportInterval.value now

end Telemetry.Agent
