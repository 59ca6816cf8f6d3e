import Mathlib.Algebra.BigOperators.Group.Finset.Basic
import Mathlib.Data.Nat.Find
import Mathlib.Order.Bounds.Basic
import Telemetry.Retry

/-! How long an attempt is repeated. A run is over with the first attempt that is not worth another
one, or with the last that the policy has (`run_eq`); the pauses before it are the first of the
policy's, and nothing is attempted after it. -/

namespace Telemetry

theorem Duration.nanos_plus_times (a b : Duration) (n : ℕ) :
    (a.plus (b.times n)).nanos = min (a.nanos + n * b.nanos) longest.nanos := by
  simp only [plus, times]
  omega

namespace Retry

variable {σ α : Type}

/-- The state before an attempt of a number, if there are so many. -/
def stateBefore (attempt : ℕ → StateM σ α) (s : σ) : ℕ → σ
  | 0 => s
  | n + 1 => ((attempt n).run (stateBefore attempt s n)).2

/-- The outcome of an attempt of a number, if there are so many. -/
def outcome (attempt : ℕ → StateM σ α) (s : σ) (n : ℕ) : α :=
  ((attempt n).run (stateBefore attempt s n)).1

/-- The numbers of the attempts that nothing follows. -/
def ends (policy : Policy) (retryable : α → Bool) (outcome : ℕ → α) : Set ℕ :=
  {i | retryable (outcome i) = false ∨ i = policy.maxRetries}

theorem exists_isLeast_ends (policy : Policy) (retryable : α → Bool) (o : ℕ → α) :
    ∃ k, IsLeast (ends policy retryable o) k := by
  classical
  have hmax : ∃ i, i ∈ ends policy retryable o := ⟨policy.maxRetries, Or.inr rfl⟩
  exact ⟨Nat.find hmax, Nat.find_spec hmax, fun i hi => Nat.find_min' hmax hi⟩

theorem retryable_of_lt {policy : Policy} {retryable : α → Bool} {o : ℕ → α} {k i : ℕ}
    (last : IsLeast (ends policy retryable o) k) (h : i < k) : retryable (o i) = true := by
  by_contra hi
  exact absurd (last.2 (Or.inl (by simpa using hi))) (Nat.not_le.2 h)

theorem le_maxRetries {policy : Policy} {retryable : α → Bool} {o : ℕ → α} {k : ℕ}
    (last : IsLeast (ends policy retryable o) k) : k ≤ policy.maxRetries :=
  last.2 (Or.inr rfl)

theorem runFrom_eq (policy : Policy) (retryable : α → Bool) (attempt : ℕ → StateM σ α) (s : σ)
    {left i n : ℕ} (before : ∀ j < n, retryable (outcome attempt s (i + j)) = true)
    (bound : n ≤ left) (last : n < left → retryable (outcome attempt s (i + n)) = false) :
    (runFrom policy retryable attempt left i).run (stateBefore attempt s i) =
      (⟨outcome attempt s (i + n), (List.range' i n).map policy.delay⟩,
        stateBefore attempt s (i + n + 1)) := by
  -- on the retries that are made; each moves the number of the attempt on and has one less to go
  induction n generalizing left i with
  | zero =>
    cases left with
    | zero => rfl
    | succ left =>
      have stop : retryable (outcome attempt s i) = false := last (Nat.succ_pos left)
      show StateT.run (if retryable (outcome attempt s i) = true then _ else _)
        (stateBefore attempt s (i + 1)) = _
      rw [stop]
      rfl
  | succ n ih =>
    obtain ⟨left, rfl⟩ : ∃ left', left = left' + 1 := ⟨left - 1, by omega⟩
    have again : retryable (outcome attempt s i) = true := before 0 (Nat.succ_pos n)
    have rest := @ih left (i + 1)
      (fun j hj => by rw [Nat.add_right_comm, Nat.add_assoc]; exact before (j + 1) (by omega))
      (by omega) (fun h => by rw [Nat.add_right_comm, Nat.add_assoc]; exact last (by omega))
    rw [Nat.add_right_comm i 1 n, Nat.add_assoc i n 1] at rest
    show StateT.run (if retryable (outcome attempt s i) = true then _ else _)
      (stateBefore attempt s (i + 1)) = _
    rw [again, if_pos rfl, StateT.run_bind, rest]
    rfl

theorem run_eq {policy : Policy} {retryable : α → Bool} {attempt : ℕ → StateM σ α} {s : σ} {k : ℕ}
    (last : IsLeast (ends policy retryable (outcome attempt s)) k) :
    (run policy retryable attempt).run s =
      (⟨outcome attempt s k, (List.range k).map policy.delay⟩, stateBefore attempt s (k + 1)) := by
  have h := @runFrom_eq _ _ policy retryable attempt s policy.maxRetries 0 k
    (fun j hj => by rw [Nat.zero_add]; exact retryable_of_lt last hj) (le_maxRetries last)
    (fun hk => by rw [Nat.zero_add]; exact last.1.resolve_right (Nat.ne_of_lt hk))
  rw [Nat.zero_add, ← List.range_eq_range'] at h
  exact h

theorem attemptTimes_range' (policy : Policy) (now i n : ℕ) :
    attemptTimes now ((List.range' i n).map policy.delay) =
      (List.range (n + 1)).map fun m =>
        now + ∑ j ∈ Finset.range m, (policy.delay (i + j)).millisUp := by
  induction n generalizing now i with
  | zero => rfl
  | succ n ih =>
    rw [List.range'_succ, List.map_cons, attemptTimes, ih, List.range_succ_eq_map (n := n + 1),
      List.map_cons, List.map_map]
    refine congrArg₂ List.cons rfl (List.map_congr_left fun m _ => ?_)
    have shift : ∑ j ∈ Finset.range m, (policy.delay (i + (j + 1))).millisUp =
        ∑ j ∈ Finset.range m, (policy.delay (i + 1 + j)).millisUp :=
      Finset.sum_congr rfl fun j _ => by rw [Nat.add_right_comm, Nat.add_assoc]
    rw [Function.comp_apply, Nat.succ_eq_add_one, Finset.sum_range_succ', shift, Nat.add_assoc,
      Nat.add_comm (policy.delay i).millisUp]
    rfl

/-- Each attempt is made as soon as the pause after the one before it is over. -/
theorem attemptTimes_range (policy : Policy) (now k : ℕ) :
    attemptTimes now ((List.range k).map policy.delay) =
      (List.range (k + 1)).map fun i =>
        now + ∑ j ∈ Finset.range i, (policy.delay j).millisUp := by
  have h := attemptTimes_range' policy now 0 k
  simp only [Nat.zero_add] at h
  rw [List.range_eq_range', h]

theorem run_of_final (policy : Policy) (retryable : α → Bool) (attempt : ℕ → StateM σ α) {s s' : σ}
    {a : α} (h : (attempt 0).run s = (a, s')) (ha : retryable a = false) :
    (run policy retryable attempt).run s = (⟨a, []⟩, s') := by
  have first : outcome attempt s 0 = a := congrArg Prod.fst h
  have after : stateBefore attempt s 1 = s' := congrArg Prod.snd h
  have last : IsLeast (ends policy retryable (outcome attempt s)) 0 :=
    ⟨Or.inl (first.symm ▸ ha), fun i _ => Nat.zero_le i⟩
  rw [run_eq last, first, after]
  rfl

end Retry
end Telemetry
