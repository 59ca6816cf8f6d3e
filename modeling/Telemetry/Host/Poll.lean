import Telemetry.Host.Cores
import Telemetry.Host.Load
import Telemetry.Host.Usage
import Telemetry.Storage.Directory
import Telemetry.Storage.Memory
import Telemetry.Duration

/-!
Polls of the host. A source that cannot be read is left out of the poll, and a batch that is
refused leaves the store as it was.
-/

namespace Telemetry.Host

def readSource (d : Directory) (root file : String) : Except Error String :=
  match d.readText? (root ++ "/" ++ file) with
  | some text => .ok text
  | none => .error (.unreadable (root ++ "/" ++ file))

/-- The metrics of a source, none if it is of no use. -/
def metricsOr (r : Except Error (List Metric)) : List Metric := r.toOption.getD []

/-- The cores, and what to compare the next look with. -/
def pollCores (d : Directory) (root : String) (s : Sampler) : Sampler × List Metric :=
  match (readSource d root "stat").bind s.sample with
  | .ok r => r
  | .error _ => (s, [])

/-- One look at every source, and a number from outside. -/
def collect (d : Directory) (root : String) (random : Real64) (s : Sampler) :
    Sampler × List Metric :=
  let (s, cores) := pollCores d root s
  (s, metricsOr ((readSource d root "meminfo").bind fun c => (MemoryInfo.parse c).map (·.metrics)) ++
    metricsOr ((readSource d root "self/status").bind fun c => (ProcessInfo.parse c).map (·.metrics)) ++
    metricsOr ((readSource d root "loadavg").bind fun c => (Load.parse c).map (·.metrics)) ++
    cores ++ [⟨"RandomValue", .gauge random⟩])

structure Poller where
  sampler : Sampler
  memory : Memory

namespace Poller

def start : Poller := ⟨.start, .empty⟩

/-- A poll, and whether its batch was stored. -/
def poll (p : Poller) (d : Directory) (root : String) (random : Real64) :
    Poller × List Metric × Except Rejection Unit :=
  let (sampler, batch) := collect d root random p.sampler
  match p.memory.setAll batch with
  | .ok memory => (⟨sampler, memory⟩, batch, .ok ())
  | .error why => (⟨sampler, p.memory⟩, batch, .error why)

/-- Several polls of the same sources. -/
def polls (p : Poller) (d : Directory) (root : String) (random : Real64) : Nat → Poller
  | 0 => p
  | n + 1 => (polls p d root random n).poll d root random |>.1

end Poller

/-- How many polls there were by a time, the first one at time zero. -/
def pollsBy (interval time : Duration) : Nat :=
  if interval.isZero then 0 else time.nanos / interval.nanos + 1

/-- The poller at a time. -/
def pollUntil (d : Directory) (root : String) (random : Real64) (interval time : Duration) :
    Poller :=
  Poller.start.polls d root random (pollsBy interval time)

end Telemetry.Host
