/-!
A pool of workers with a queue for one job. The dispatcher waits for the queue to be free and takes
results out meanwhile; workers put results into a queue with room for one from each. The workers share
the receiving end of the queue: one of them at a time may hold it while it waits for a job, and the
others wait for that one. The dispatcher and the workers do their steps in any order (`Pool.step?`).
-/

namespace Telemetry.Agent

structure JobResult (Job Outcome : Type) where
  worker : Nat
  job : Job
  outcome : Outcome

/-- What a worker is doing. -/
inductive Worker (Job Outcome : Type)
  | idle
  | running (job : Job)
  /-- The result has not been put into the queue yet. -/
  | done (job : Job) (outcome : Outcome)
  | stopped

/-- What the dispatcher is doing: nothing, or waiting for the queue with a job. -/
inductive Dispatcher (Job : Type)
  | ready
  | offering (job : Job)

/-- The workers are numbered from one in the order of the list. -/
structure Pool (Job Outcome : Type) where
  dispatcher : Dispatcher Job
  queue : Option Job
  /-- The worker that holds the receiving end of the queue. -/
  receiver : Option Nat
  workers : List (Worker Job Outcome)
  results : List (JobResult Job Outcome)
  cancelled : Bool

namespace Pool

variable {Job Outcome : Type}

inductive Action (Job Outcome : Type)
  | offer (job : Job)
  /-- The dispatcher puts its job into the queue. -/
  | enqueue
  /-- The dispatcher gives its job up. -/
  | giveUp
  /-- The dispatcher takes a result out. -/
  | drain
  /-- An idle worker gets hold of the receiving end of the queue. -/
  | wait (worker : Nat)
  | take (worker : Nat)
  | finish (worker : Nat) (outcome : Outcome)
  | report (worker : Nat)
  | stop (worker : Nat)
  | cancel

/-- A pool of at least one worker. -/
def start (size : Nat) : Pool Job Outcome :=
  ⟨.ready, none, none, List.replicate (max size 1) .idle, [], false⟩

def size (p : Pool Job Outcome) : Nat := p.workers.length

def worker? (p : Pool Job Outcome) (worker : Nat) : Option (Worker Job Outcome) :=
  if worker = 0 then none else p.workers[worker - 1]?

def setWorker (p : Pool Job Outcome) (worker : Nat) (w : Worker Job Outcome) :
    Pool Job Outcome :=
  { p with workers := p.workers.set (worker - 1) w }

/-- Whether no other worker holds the receiving end. -/
def isFreeFor (p : Pool Job Outcome) (worker : Nat) : Bool := p.receiver.all (· == worker)

/-- The pool after a step, if the step can be taken. -/
def step? (p : Pool Job Outcome) : Action Job Outcome → Option (Pool Job Outcome)
  | .offer job =>
    match p.dispatcher with
    | .ready => some { p with dispatcher := .offering job }
    | .offering _ => none
  | .enqueue =>
    match p.dispatcher, p.queue, p.cancelled with
    | .offering job, none, false => some { p with dispatcher := .ready, queue := some job }
    | _, _, _ => none
  | .giveUp =>
    match p.dispatcher, p.cancelled with
    | .offering _, true => some { p with dispatcher := .ready }
    | _, _ => none
  | .drain =>
    match p.results, p.cancelled with
    | _ :: rest, false => some { p with results := rest }
    | _, _ => none
  | .wait worker =>
    match p.worker? worker, p.receiver with
    | some .idle, none => some { p with receiver := some worker }
    | _, _ => none
  | .take worker =>
    match p.worker? worker, p.queue, p.cancelled with
    | some .idle, some job, false =>
      if p.isFreeFor worker then
        some { p.setWorker worker (.running job) with queue := none, receiver := none }
      else none
    | _, _, _ => none
  | .finish worker outcome =>
    match p.worker? worker, p.cancelled with
    | some (.running job), false => some (p.setWorker worker (.done job outcome))
    | _, _ => none
  | .report worker =>
    match p.worker? worker with
    | some (.done job outcome) =>
      if p.results.length < p.size then
        some { p.setWorker worker .idle with results := p.results ++ [⟨worker, job, outcome⟩] }
      else none
    | _ => none
  | .stop worker =>
    match p.worker? worker, p.cancelled with
    | some .idle, true =>
      some { p.setWorker worker .stopped with receiver := p.receiver.filter (· ≠ worker) }
    | some (.running _), true => some (p.setWorker worker .stopped)
    | _, _ => none
  | .cancel => some { p with cancelled := true }

/-- Does those of the steps that can be taken. -/
def attempt (p : Pool Job Outcome) (actions : List (Action Job Outcome)) : Pool Job Outcome :=
  actions.foldl (fun p a => (p.step? a).getD p) p

/-- Hands a job over; whether it was is returned too. -/
def dispatch (p : Pool Job Outcome) (job : Job) : Pool Job Outcome × Bool :=
  let p := p.attempt [.offer job]
  match p.step? .enqueue with
  | some p => (p, true)
  | none => (p.attempt [.giveUp], false)

/-- The first result once a worker has done the job in the queue. -/
def complete (p : Pool Job Outcome) (worker : Nat) (outcome : Outcome) :
    Pool Job Outcome × Option (JobResult Job Outcome) :=
  let p := p.attempt [.take worker, .finish worker outcome, .report worker]
  (p.attempt [.drain], p.results.head?)

end Pool
end Telemetry.Agent
