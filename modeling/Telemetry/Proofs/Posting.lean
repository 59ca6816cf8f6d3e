import Mathlib.Tactic.IntervalCases
import Telemetry.Proofs.Delivery

/-! A report that is posted until there is a response or no hope of one. It is posted again only if the
connection before was refused (`Posted`); if nothing arrives over a refused connection (`Wire`), the
report arrives once or not at all. -/

namespace Telemetry

namespace Collector

theorem respondAll_concat (c : Frame.Receiver) (r : Repository) (qs : List Http.Request)
    (q : Http.Request) :
    (respondAll c r (qs ++ [q])).1 = (respond c (respondAll c r qs).1 q).1 := by
  induction qs generalizing r with
  | nil => rfl
  | cons first qs ih => exact ih (respond c r first).1

end Collector

namespace Agent

open Retry (stateBefore outcome)

theorem worthRetrying_eq_true_iff {o : Except Fault ℕ} :
    worthRetrying o = true ↔
      ∃ f, o = .error f ∧ f.connecting = true ∧ Cause.io .refused ∈ f.causes := by
  cases o with
  | ok status => simp [worthRetrying]
  | error f => simp [worthRetrying, Fault.isRetryable, isRefused]

/-- What a sender relies on of the wire to a collector. A posted request arrives once or not at all:
it has arrived if there is a response, and it has not if the connection was refused. -/
structure Wire {σ : Type} (post : Http.Request → StateM σ (Except Fault ℕ))
    (arrived : σ → List Http.Request) : Prop where
  once : ∀ q s, arrived ((post q).run s).2 = arrived s ∨ arrived ((post q).run s).2 = arrived s ++ [q]
  answered : ∀ q s status, ((post q).run s).1 = .ok status →
    arrived ((post q).run s).2 = arrived s ++ [q]
  refused : ∀ q s f, ((post q).run s).1 = .error f → f.connecting = true →
    Cause.io .refused ∈ f.causes → arrived ((post q).run s).2 = arrived s

variable {σ : Type} {post : Http.Request → StateM σ (Except Fault ℕ)}
  {arrived : σ → List Http.Request} {q : Http.Request} {s s' : σ}

/-- Nothing has arrived as long as every attempt is worth another one. -/
theorem Wire.arrived_stateBefore (wire : Wire post arrived) {n : ℕ}
    (again : ∀ i < n, worthRetrying (outcome (fun _ => post q) s i) = true) :
    arrived (stateBefore (fun _ => post q) s n) = arrived s := by
  induction n with
  | zero => rfl
  | succ n ih =>
    obtain ⟨f, hf, connecting, refused⟩ := worthRetrying_eq_true_iff.1 (again n (Nat.lt_succ_self n))
    exact (wire.refused q _ f hf connecting refused).trans
      (ih fun i hi => again i (Nat.lt_succ_of_lt hi))

/-- What a delivery does whose last attempt is number `k`: it posts the same request each time, again
only because the connection before was refused, and no more once there is a response. -/
structure Posted (policy : Retry.Policy) (post : Http.Request → StateM σ (Except Fault ℕ))
    (q : Http.Request) (s : σ) (k : ℕ) (answer : Except Undelivered ℕ) (s' : σ) : Prop where
  last : IsLeast
    {i | worthRetrying (outcome (fun _ => post q) s i) = false ∨ i = policy.maxRetries} k
  posts : s' = stateBefore (fun _ => post q) s (k + 1)
  answer : answer = (outcome (fun _ => post q) s k).mapError .transport
  again : ∀ i < k, ∃ f, outcome (fun _ => post q) s i = .error f ∧ f.connecting = true ∧
    Cause.io .refused ∈ f.causes
  response : ∀ i ≤ k, ∀ status, outcome (fun _ => post q) s i = .ok status → i = k

theorem posted_deliver (t : Transport) (post : Http.Request → StateM σ (Except Fault ℕ))
    (framed : Frame.Framed) (s : σ) :
    ∃ k answer s', (t.deliver post framed).run s = (answer, s') ∧
      Posted t.policy post (request framed) s k answer s' := by
  obtain ⟨k, last⟩ := Retry.exists_isLeast_ends t.policy worthRetrying
    (outcome (fun _ => post (request framed)) s)
  have refused : ∀ i < k, ∃ f, outcome (fun _ => post (request framed)) s i = .error f ∧
      f.connecting = true ∧ Cause.io .refused ∈ f.causes :=
    fun i hi => worthRetrying_eq_true_iff.1 (Retry.retryable_of_lt last hi)
  refine ⟨k, _, _, ?_, last, rfl, rfl, refused, fun i hi status hok => ?_⟩
  · rw [Transport.deliver, StateT.run_bind, Retry.run_eq last]
    cases outcome (fun _ => post (request framed)) s k <;> rfl
  by_contra hne
  obtain ⟨f, hf, -⟩ := refused i (Nat.lt_of_le_of_ne hi hne)
  cases hok.symm.trans hf

theorem Posted.arrives {policy : Retry.Policy} {k : ℕ} {answer : Except Undelivered ℕ}
    (posted : Posted policy post q s k answer s') (wire : Wire post arrived) :
    (∀ i ≤ k, arrived (stateBefore (fun _ => post q) s i) = arrived s) ∧
    (arrived s' = arrived s ∨ arrived s' = arrived s ++ [q]) ∧
    ∀ status, answer = .ok status → arrived s' = arrived s ++ [q] := by
  have before : ∀ i ≤ k, arrived (stateBefore (fun _ => post q) s i) = arrived s := fun i hi =>
    wire.arrived_stateBefore fun j hj =>
      worthRetrying_eq_true_iff.2 (posted.again j (Nat.lt_of_lt_of_le hj hi))
  rw [posted.posts, posted.answer, ← before k le_rfl]
  refine ⟨fun i hi => (before i hi).trans (before k le_rfl).symm, wire.once q _,
    fun status ok => wire.answered q _ status ?_⟩
  show outcome (fun _ => post q) s k = .ok status
  cases ho : outcome (fun _ => post q) s k with
  | ok n =>
    rw [ho] at ok
    exact congrArg Except.ok (Except.ok.inj ok)
  | error f =>
    rw [ho] at ok
    cases ok

/-- Retries end, are spaced as the policy says and deliver at most once. A run ends with the first
attempt that is not worth another one or with the last that the policy has, whatever the attempts
do; it pauses before each retry for the policy's next delay and gives the last outcome back. So a
report is posted again, unchanged, only after a refused connection, when nothing of it has arrived,
and the collector gets it once or not at all. -/
theorem retries_end_and_deliver_at_most_once {policy : Retry.Policy}
    (limit : policy.maxRetries < 2 ^ 32 - 1) :
    policy.maxAttempts = policy.maxRetries + 1 ∧
    (∀ i, (policy.delay i).nanos =
      min (policy.start.nanos + i * policy.step.nanos) Duration.longest.nanos) ∧
    (∀ (σ α : Type) (retryable : α → Bool) (attempt : ℕ → StateM σ α) (s : σ), ∃ k,
      IsLeast {i | retryable (outcome attempt s i) = false ∨ i = policy.maxRetries} k ∧
      k + 1 ≤ policy.maxAttempts ∧
      (Retry.run policy retryable attempt).run s =
        (⟨outcome attempt s k, (List.range k).map policy.delay⟩, stateBefore attempt s (k + 1)) ∧
      ∀ now, Retry.attemptTimes now ((List.range k).map policy.delay) =
        (List.range (k + 1)).map fun i =>
          now + ∑ j ∈ Finset.range i, (policy.delay j).millisUp) ∧
    ∀ (σ : Type) (t : Transport) (noise : Rsa.Noise)
      (post : Http.Request → StateM σ (Except Fault ℕ)) (metrics : List Metric) (s : σ),
      t.policy = policy →
      (∀ why, t.sender.frameMetrics noise metrics = .error why →
        (t.send noise post metrics).run s = (.error (.frame why), s)) ∧
      ∀ framed, t.sender.frameMetrics noise metrics = .ok framed →
        (request framed).body = framed.body ∧
        (request framed).header? Collector.signatureHeader = framed.signature.map String.toUTF8 ∧
        ∃ k answer s', (t.send noise post metrics).run s = (answer, s') ∧
          Posted policy post (request framed) s k answer s' ∧
          ∀ arrived, Wire post arrived →
            (∀ i ≤ k, arrived (stateBefore (fun _ => post (request framed)) s i) = arrived s) ∧
            (arrived s' = arrived s ∨ arrived s' = arrived s ++ [request framed]) ∧
            (∀ status, answer = .ok status → arrived s' = arrived s ++ [request framed]) ∧
            ∀ (c : Frame.Receiver) (r : Repository),
              (Collector.respondAll c r (arrived s')).1 = (Collector.respondAll c r (arrived s)).1 ∨
              (Collector.respondAll c r (arrived s')).1 =
                (Collector.respond c (Collector.respondAll c r (arrived s)).1 (request framed)).1 := by
  have attempts : policy.maxAttempts = policy.maxRetries + 1 := Nat.min_eq_left limit
  refine ⟨attempts, fun i => Duration.nanos_plus_times _ _ _,
    fun σ α retryable attempt s => ?_, fun σ t noise post metrics s hpolicy => ⟨fun why frame => ?_,
      fun framed frame => ⟨rfl, header?_request framed, ?_⟩⟩⟩
  · obtain ⟨k, last⟩ := Retry.exists_isLeast_ends policy retryable (outcome attempt s)
    have bound : k + 1 ≤ policy.maxAttempts := attempts ▸ Nat.succ_le_succ (Retry.le_maxRetries last)
    exact ⟨k, last, bound, Retry.run_eq last, fun now => Retry.attemptTimes_range policy now k⟩
  · rw [Transport.send, frame]
    rfl
  · obtain ⟨k, answer, s', run, posted⟩ := posted_deliver t post framed s
    rw [Transport.send, frame]
    refine ⟨k, answer, s', run, hpolicy ▸ posted, fun arrived wire => ?_⟩
    obtain ⟨before, once, answered⟩ := posted.arrives wire
    refine ⟨before, once, answered, fun c r => once.imp (fun same => by rw [same]) fun one => ?_⟩
    rw [one, Collector.respondAll_concat]

/-- A collector that is starting and refuses some connections before it answers. -/
structure Starting where
  refusals : ℕ
  arrived : List Http.Request
  repository : Repository

def Starting.receive (c : Frame.Receiver) (q : Http.Request) : StateM Starting (Except Fault ℕ) :=
  fun w =>
    match w.refusals with
    | 0 =>
      (.ok (Collector.respond c w.repository q).2.status,
        ⟨0, w.arrived ++ [q], (Collector.respond c w.repository q).1⟩)
    | n + 1 => (.error ⟨true, [.plain, .io .refused]⟩, { w with refusals := n })

theorem Starting.wire (c : Frame.Receiver) : Wire (Starting.receive c) Starting.arrived where
  once q w := by
    obtain ⟨refusals, arrived, repository⟩ := w
    cases refusals with
    | zero => exact Or.inr rfl
    | succ n => exact Or.inl rfl
  answered q w status h := by
    obtain ⟨refusals, arrived, repository⟩ := w
    cases refusals with
    | zero => rfl
    | succ n => cases h
  refused q w f h _ _ := by
    obtain ⟨refusals, arrived, repository⟩ := w
    cases refusals with
    | zero => cases h
    | succ n => rfl

/-- Two refused connections: the signed report of a counter arrives once, with the third attempt. -/
theorem report_arrives_after_refusals :
    ∃ (framed : Frame.Framed) (status : ℕ) (r : Repository),
      ((⟨.make (some "secret".toUTF8) none, .standard⟩ : Transport).send (fun _ _ => 1)
        (Starting.receive (.make (some "secret".toUTF8) none)) [⟨"PollCount", .counter 5⟩]).run
          ⟨2, [], .make (.memory .empty)⟩ = (.ok status, ⟨0, [request framed], r⟩) ∧
      Posted .standard (Starting.receive (.make (some "secret".toUTF8) none)) (request framed)
        ⟨2, [], .make (.memory .empty)⟩ 2 (.ok status) ⟨0, [request framed], r⟩ ∧
      ∀ i ≤ 2, (stateBefore (fun _ => Starting.receive (.make (some "secret".toUTF8) none)
        (request framed)) ⟨2, [], .make (.memory .empty)⟩ i).arrived = [] := by
  let c : Frame.Receiver := .make (some "secret".toUTF8) none
  let start : Starting := ⟨2, [], .make (.memory .empty)⟩
  obtain ⟨framed, frame⟩ : ∃ framed, (Frame.Sender.make (some "secret".toUTF8) none).frameMetrics
      (fun _ _ => 1) [⟨"PollCount", .counter 5⟩] = .ok framed := ⟨_, rfl⟩
  obtain ⟨-, -, -, sends⟩ := @retries_end_and_deliver_at_most_once .standard (by decide)
  obtain ⟨-, -, k, answer, s', run, posted, arrives⟩ :=
    (sends Starting ⟨.make (some "secret".toUTF8) none, .standard⟩ (fun _ _ => 1)
      (Starting.receive c) [⟨"PollCount", .counter 5⟩] start rfl).2 framed frame
  obtain rfl : k = 2 := by
    have third : k ≤ 2 := posted.last.2 (Or.inl rfl)
    have ends := posted.last.1
    interval_cases k
    · exact absurd ends (by rintro (h | h) <;> cases h)
    · exact absurd ends (by rintro (h | h) <;> cases h)
    · rfl
  obtain rfl : answer = .ok (Collector.respond c (.make (.memory .empty)) (request framed)).2.status :=
    posted.answer
  have state : s' = ⟨0, [] ++ [request framed],
    (Collector.respond c (.make (.memory .empty)) (request framed)).1⟩ := posted.posts
  subst state
  exact ⟨framed, _, _, run, posted, (arrives Starting.arrived (Starting.wire c)).1⟩

end Agent
end Telemetry
