import Telemetry.Duration

/-!
Repeating an attempt that fails for the time being. The pauses grow by the same step each time, and
there is one attempt more than there are pauses.
-/

namespace Telemetry.Retry

structure Policy where
  maxRetries : Nat
  start : Duration
  step : Duration
deriving DecidableEq

namespace Policy

def standard : Policy := ⟨3, .ofSeconds 1, .ofSeconds 2⟩

/-- The pause before a retry, counted from zero; none is longer than a span can be. -/
def delay (p : Policy) (retry : Nat) : Duration := p.start.plus (p.step.times retry)

/-- One more than the retries, as far as 32 bits go. -/
def maxAttempts (p : Policy) : Nat := min (p.maxRetries + 1) (2 ^ 32 - 1)

end Policy

/-- The outcome of the last attempt and the pauses before it. -/
structure Run (α : Type) where
  outcome : α
  pauses : List Duration

/-- Attempts from number `i` on with `left` retries to go. -/
def runFrom [Monad m] (policy : Policy) (retryable : α → Bool) (attempt : Nat → m α) :
    Nat → Nat → m (Run α)
  | 0, i => do pure ⟨← attempt i, []⟩
  | left + 1, i => do
    let outcome ← attempt i
    if retryable outcome then
      let r ← runFrom policy retryable attempt left (i + 1)
      pure ⟨r.outcome, policy.delay i :: r.pauses⟩
    else pure ⟨outcome, []⟩

/-- Attempts until one has an outcome that is not retryable, or the retries are used up. -/
def run [Monad m] (policy : Policy) (retryable : α → Bool) (attempt : Nat → m α) : m (Run α) :=
  runFrom policy retryable attempt policy.maxRetries 0

/-- The times of the attempts, in whole milliseconds: a pause ends on one. -/
def attemptTimes (now : Nat) : List Duration → List Nat
  | [] => [now]
  | d :: ds => now :: attemptTimes (now + d.millisUp) ds

end Telemetry.Retry
