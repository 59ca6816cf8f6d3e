import Telemetry.Proofs.Merge
import Telemetry.Proofs.Rows

/-! A batch is its members set one after the other, or nothing at all. The run of members is on
whole repositories, so it also tells of each accepted member; a batch tells once. -/

namespace Telemetry

namespace Memory

/-- Why a gauge or counter is refused: by itself, for what is stored under its name, or because it
cannot be counted any more. -/
inductive Refuses (v : Memory) (m : Metric) : Rejection → Prop
  | invalid {why : Rejection} (h : m.validate = .error why) : Refuses v m why
  | stored {why : Rejection} (hm : m.validate = .ok ()) (h : v.merge m = .error why) :
    Refuses v m why
  | uncounted {why : Rejection} {v' : Memory} (hm : m.validate = .ok ()) (hk : m.kind = .gauge)
    (hv : v.merge m = .ok v') (h : v'.merge .tick = .error why) : Refuses v m why

theorem set_eq_error_iff {v : Memory} {m : Metric} {why : Rejection} :
    v.set m = .error why ↔ v.Refuses m why := by
  rw [set_eq_write, write, bind_eq_error_iff]
  constructor
  · rintro (h | ⟨_, hm, h⟩)
    · exact .invalid h
    rcases bind_eq_error_iff.1 h with h | ⟨v', hv, h⟩
    · exact .stored hm h
    cases hk : m.kind with
    | gauge =>
      rw [hk] at h
      exact .uncounted hm hk hv h
    | counter =>
      rw [hk] at h
      cases h
  · rintro (h | ⟨hm, h⟩ | ⟨hm, hk, hv, h⟩)
    · exact Or.inl h
    · exact Or.inr ⟨(), hm, bind_eq_error_iff.2 (Or.inl h)⟩
    · refine Or.inr ⟨(), hm, bind_eq_error_iff.2 (Or.inr ⟨_, hv, ?_⟩)⟩
      rw [hk]
      exact h

theorem refuses_uncounted {v : Memory} {m : Metric} (hm : m.validate = .ok ())
    (hk : m.kind = .gauge) (hv : ∀ n, v.find? m.name ≠ some (.counter n))
    (hp : v.find? pollCount = some (.counter Int64.maxValue)) :
    v.Refuses m (.counterOverflow pollCount Int64.maxValue 1) := by
  obtain ⟨name, value⟩ := m
  cases value with
  | counter n => cases hk
  | gauge x =>
    obtain ⟨-, hgauge⟩ := Metric.validate_eq_ok_iff.1 hm
    obtain ⟨hname, -⟩ := hgauge x rfl
    refine .uncounted hm hk (merge_gauge hv x) (merge_tick_overflow ?_)
    rw [SortedMap.find?_insert, if_neg (Ne.symm hname), hp]

end Memory

namespace Store

open Storage (Error)

theorem setAll_eq_foldlM (s : Store) (batch : List Metric) :
    s.setAll batch = batch.foldlM set s := by
  cases s with
  | memory values =>
    have step (v : Memory) (s : Store) (m : Metric) (h : memory v = s) :
        Alike Error.rejected (fun v s => memory v = s) (v.write m) (s.set m) := by
      subst h
      rw [← Memory.set_eq_write]
      exact ofMemory_alike _
    have run := Alike.foldlM step batch (rfl : memory values = memory values)
    rw [← Memory.setAll_eq_foldlM] at run
    exact (ofMemory_alike _).unique run
  | database path content =>
    have step (c : Database) (s : Store) (m : Metric) (h : database path c = s) :
        Alike id (fun c s => database path c = s) (c.set m) (s.set m) := by
      subst h
      exact Alike.map _ _
    exact (Alike.map _ _).unique
      (Alike.foldlM step batch (rfl : database path content = database path content))

end Store

namespace Repository

open Storage (Error)

/-- A run of single writes changes the store as the store's own writes do. -/
theorem foldlM_set_store (r : Repository) (batch : List Metric) :
    (batch.foldlM set r).map store = batch.foldlM Store.set r.store := by
  have step (r : Repository) (s : Store) (m : Metric) (h : r.store = s) :
      Alike id (fun r s => r.store = s) (r.set m) (s.set m) := by
    subst h
    unfold set
    cases r.store.set m with
    | error e => exact .error e
    | ok s => exact .ok rfl
  exact (Alike.map store _).unique (Alike.foldlM step batch rfl)

theorem apply_setAll (r : Repository) (batch : List Metric) :
    r.apply (.setAll batch) = (batch.foldlM Store.set r.store).map r.accept := by
  rw [apply_eq_map, Store.apply, Store.setAll_eq_foldlM]
  rfl

theorem foldlM_set_eq_ok_iff {r : Repository} {batch : List Metric} {s : Store} :
    batch.foldlM Store.set r.store = .ok s ↔ ∃ r', batch.foldlM set r = .ok r' ∧ r'.store = s := by
  rw [← foldlM_set_store]
  cases batch.foldlM set r with
  | error e => simp [Except.map]
  | ok r' => simp [Except.map]

theorem foldlM_set_eq_error_iff {r : Repository} {batch : List Metric} {e : Error} :
    batch.foldlM Store.set r.store = .error e ↔ batch.foldlM set r = .error e := by
  rw [← foldlM_set_store]
  cases batch.foldlM set r with
  | error e => simp [Except.map]
  | ok r' => simp [Except.map]

theorem set_eq_setAll (r : Repository) (m : Metric) : r.apply (.set m) = r.apply (.setAll [m]) := by
  rw [apply_setAll, apply_eq_map, Store.apply, List.foldlM_cons]
  cases r.store.set m <;> rfl

theorem set_holding_eq_error_iff {s : Store} {v : Memory} {watcher : Option Channel} {m : Metric}
    {e : Error} :
    set ⟨s.holding v, watcher⟩ m = .error e ↔ ∃ why, e = .rejected why ∧ v.Refuses m why := by
  have whole : set ⟨s.holding v, watcher⟩ m = _ := apply_eq_map ⟨s.holding v, watcher⟩ (.set m)
  simp only [whole, ← Memory.set_eq_error_iff]
  rcases (Store.apply_holding s v (.set m)).outcome with ⟨why, hv, hs⟩ | ⟨v', t, hv, hs, rfl⟩
  · rw [hs, show v.set m = .error why from hv]
    simp [Except.map, eq_comm]
  · rw [hs, show v.set m = .ok v' from hv]
    simp [Except.map]

/-- A batch ends as the run of its members does, but with one notice for all of them; or it is
refused for the first member that is, at the stage that refuses it, and nothing happened. -/
theorem batch_is_its_members_or_nothing (r : Repository) (batch : List Metric) :
    (∀ s, r.call (.setAll batch) = (⟨s, r.watcher.map Channel.notify⟩, .ok ()) ↔
      ∃ r', batch.foldlM set r = .ok r' ∧ r'.store = s) ∧
    (∀ e, r.call (.setAll batch) = (r, .error e) ↔
      ∃ before m after r', batch = before ++ m :: after ∧ before.foldlM set r = .ok r' ∧
        r'.set m = .error e) ∧
    ((∃ s, r.call (.setAll batch) = (⟨s, r.watcher.map Channel.notify⟩, .ok ())) ∨
      ∃ e, r.call (.setAll batch) = (r, .error e)) ∧
    (∀ m, r.call (.set m) = r.call (.setAll [m])) ∧
    (∀ (s : Store) (v : Memory) (watcher : Option Channel) (m : Metric) (e : Error),
      set ⟨s.holding v, watcher⟩ m = .error e ↔ ∃ why, e = .rejected why ∧ v.Refuses m why) ∧
    (∀ (s : Store) (v : Memory) (watcher : Option Channel) (m : Metric), m.validate = .ok () →
      m.kind = .gauge → (∀ n, v.find? m.name ≠ some (.counter n)) →
      v.find? pollCount = some (.counter Int64.maxValue) →
      call ⟨s.holding v, watcher⟩ (.set m) = (⟨s.holding v, watcher⟩,
        .error (.rejected (.counterOverflow pollCount Int64.maxValue 1)))) := by
  refine ⟨fun s => ?_, fun e => ?_, ?_, fun m => ?_,
    fun s v watcher m e => set_holding_eq_error_iff, fun s v watcher m hm hk hv hp => ?_⟩
  · rw [call_eq_ok_iff, apply_setAll, ← foldlM_set_eq_ok_iff]
    cases batch.foldlM Store.set r.store with
    | error e => simp [Except.map]
    | ok s' => simp [Except.map, accept]
  · rw [call_eq_error_iff, apply_setAll, ← foldlM_eq_error_iff, ← foldlM_set_eq_error_iff]
    cases batch.foldlM Store.set r.store with
    | error e => simp [Except.map]
    | ok s' => simp [Except.map]
  · cases h : batch.foldlM Store.set r.store with
    | error e =>
      refine Or.inr ⟨e, call_eq_error_iff.2 ?_⟩
      rw [apply_setAll, h]
      rfl
    | ok s =>
      refine Or.inl ⟨s, call_eq_ok_iff.2 ?_⟩
      rw [apply_setAll, h]
      rfl
  · simp only [call, set_eq_setAll]
  · refine call_eq_error_iff.2 (set_holding_eq_error_iff.2 ⟨_, rfl, ?_⟩)
    exact Memory.refuses_uncounted hm hk hv hp

/-- A counter under the name of an earlier gauge of its batch undoes that gauge and its poll, and a
gauge that cannot be counted is not stored. -/
theorem batch_undone :
    call ⟨.memory .empty, some ⟨1, 0⟩⟩ (.setAll [⟨"load", .gauge .zero⟩, ⟨"load", .counter 1⟩]) =
        (⟨.memory .empty, some ⟨1, 0⟩⟩, .error (.rejected (.kindMismatch "load" .gauge .counter))) ∧
      (∀ n, SortedMap.find? [(pollCount, .counter Int64.maxValue)] "load" ≠
        some (Value.counter n)) ∧
      call ⟨.memory [(pollCount, .counter Int64.maxValue)], none⟩ (.set ⟨"load", .gauge .zero⟩) =
        (⟨.memory [(pollCount, .counter Int64.maxValue)], none⟩,
          .error (.rejected (.counterOverflow pollCount Int64.maxValue 1))) := by
  have free : ∀ n, SortedMap.find? [(pollCount, .counter Int64.maxValue)] "load" ≠
      some (Value.counter n) := fun n h => by cases h
  refine ⟨?_, free, ?_⟩
  · obtain ⟨-, refused, -, -, stages, -⟩ := batch_is_its_members_or_nothing
      ⟨.memory .empty, some ⟨1, 0⟩⟩ [⟨"load", .gauge .zero⟩, ⟨"load", .counter 1⟩]
    refine (refused _).2 ⟨[⟨"load", .gauge .zero⟩], _, [], _, rfl, rfl, ?_⟩
    exact (stages (.memory .empty) _ _ _ _).2 ⟨_, rfl, .stored rfl rfl⟩
  · obtain ⟨-, -, -, -, -, uncounted⟩ := batch_is_its_members_or_nothing
      ⟨.memory .empty, none⟩ []
    exact uncounted (.memory .empty) _ none ⟨"load", .gauge .zero⟩ rfl rfl free rfl

end Repository
end Telemetry
