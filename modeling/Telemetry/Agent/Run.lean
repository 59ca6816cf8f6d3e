import Telemetry.Agent.Config
import Telemetry.Agent.Delivery
import Telemetry.Host.Poll

/-!
A run of the agent: the host is polled into a store in memory, and the store is reported again and
again.
-/

namespace Telemetry.Agent

/-- What ends a run before its time. -/
inductive Failure
  | encryptionKey
deriving DecidableEq

def Failure.message : Failure → String
  | encryptionKey => "failed to load encryption key"

/-- How the configuration has reports sent. -/
def Config.transport (d : Directory) (c : Config) : Except Frame.Error Transport := do
  .ok ⟨← c.sender d, c.retry⟩

/-- The transport of a run, which does not start without one. -/
def Config.start (d : Directory) (c : Config) : Except Failure Transport :=
  match c.transport d with
  | .ok t => .ok t
  | .error _ => .error .encryptionKey

/-- The store after the first poll. -/
def firstPoll (d : Directory) (root : String) (random : Real64) : Store :=
  .memory (Host.Poller.start.poll d root random).1.memory

end Telemetry.Agent
