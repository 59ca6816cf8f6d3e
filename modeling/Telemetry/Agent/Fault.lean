/-!
Failed connections by the chain of their causes. Only a connection that was refused is worth
another try: nothing of the request has arrived then.
-/

namespace Telemetry.Agent

inductive IoKind
  | refused
  | reset
  | timeout
  | aborted
  | other
deriving DecidableEq

/-- A link in a chain of causes. -/
inductive Cause
  | plain
  | io (kind : IoKind)
deriving DecidableEq

/-- Whether a chain of causes, outermost first, has a refused connection in it. -/
def isRefused (causes : List Cause) : Bool := causes.any (· == .io .refused)

/-- Why there is no response. -/
structure Fault where
  /-- Whether the connection was never made. -/
  connecting : Bool
  causes : List Cause
deriving DecidableEq

def Fault.isRetryable (f : Fault) : Bool := f.connecting && isRefused f.causes

end Telemetry.Agent
