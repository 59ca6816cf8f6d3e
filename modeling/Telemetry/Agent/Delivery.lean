import Telemetry.Agent.Fault
import Telemetry.Frame.Basic
import Telemetry.Http.Message
import Telemetry.Retry
import Telemetry.Storage.Store

/-!
Delivering metrics to the collector: one framed request, posted again only if the connection was
refused. Any response ends the delivery, whatever its status.
-/

namespace Telemetry.Agent

/-- Why a batch was not delivered. -/
inductive Undelivered
  | repository (why : Storage.Error)
  | frame (why : Frame.Error)
  | transport (why : Fault)
deriving DecidableEq

namespace Undelivered

def message : Undelivered → String
  | repository why => "failed to snapshot local metrics: " ++ why.message
  | frame why => "failed to encode batch: " ++ why.message
  | transport _ => "transport error: no response"

def isRetryable : Undelivered → Bool
  | transport why => why.isRetryable
  | _ => false

end Undelivered

/-- How batches are framed, and how often a refused connection is tried. -/
structure Transport where
  sender : Frame.Sender
  policy : Retry.Policy

/-- The request that carries a framed batch. -/
def request (framed : Frame.Framed) : Http.Request :=
  { method := "POST"
    target := "/updates"
    headers :=
      [("content-type", "application/json".toUTF8),
       ("content-encoding", "application/gzip".toUTF8)] ++
      (framed.signature.map fun s => ("HashSHA256", s.toUTF8)).toList
    body := framed.body }

/-- An attempt is worth another one if the connection was refused. -/
def worthRetrying (outcome : Except Fault Nat) : Bool :=
  match outcome with
  | .ok _ => false
  | .error why => why.isRetryable

namespace Transport

/-- Posts a request until there is a response, whose status is returned, or no hope of one. -/
def deliver [Monad m] (t : Transport) (post : Http.Request → m (Except Fault Nat))
    (framed : Frame.Framed) : m (Except Undelivered Nat) := do
  let r ← Retry.run t.policy worthRetrying fun _ => post (request framed)
  match r.outcome with
  | .ok status => pure (.ok status)
  | .error why => pure (.error (.transport why))

def send [Monad m] (t : Transport) (noise : Rsa.Noise)
    (post : Http.Request → m (Except Fault Nat)) (metrics : List Metric) :
    m (Except Undelivered Nat) :=
  match t.sender.frameMetrics noise metrics with
  | .ok framed => t.deliver post framed
  | .error why => pure (.error (.frame why))

/-- The framed report of all metrics of a store; without any there is nothing to report. -/
def report (t : Transport) (noise : Rsa.Noise) (s : Store) :
    Except Undelivered (Option Frame.Framed) :=
  match s.metrics with
  | .error why => .error (.repository why)
  | .ok [] => .ok none
  | .ok metrics =>
    match t.sender.frameMetrics noise metrics with
    | .ok framed => .ok (some framed)
    | .error why => .error (.frame why)

/-- Reports a store. -/
def sendStore [Monad m] (t : Transport) (noise : Rsa.Noise)
    (post : Http.Request → m (Except Fault Nat)) (s : Store) : m (Except Undelivered Unit) :=
  match t.report noise s with
  | .error why => pure (.error why)
  | .ok none => pure (.ok ())
  | .ok (some framed) => do
    match ← t.deliver post framed with
    | .ok _ => pure (.ok ())
    | .error why => pure (.error why)

end Transport
end Telemetry.Agent
