import Mathlib
import Telemetry.Proofs.Entries

/-! The accounts of a store. What a name holds is told by the values merged under it, in order: a
counter is their exact sum and a gauge the last of them. Over a run of calls from a store that is
new, the values are those of the accepted calls and, for the poll counter, one tick for every gauge
that counts. -/

namespace Telemetry

def Value.delta : Value → ℤ
  | gauge _ => 0
  | counter n => n.toInt

def history (name : String) (ms : List Metric) : List Value :=
  (ms.filter (·.name = name)).map (·.value)

theorem history_append (name : String) (ms ns : List Metric) :
    history name (ms ++ ns) = history name ms ++ history name ns := by
  simp [history]

theorem mem_history {name : String} {ms : List Metric} {v : Value} :
    v ∈ history name ms ↔ ⟨name, v⟩ ∈ ms := by
  simp only [history, List.mem_map, List.mem_filter, decide_eq_true_eq]
  constructor
  · rintro ⟨m, ⟨hm, rfl⟩, rfl⟩
    exact hm
  · intro h
    exact ⟨_, ⟨h, rfl⟩, rfl⟩

/-- What a name holds once these values are merged under it, the last one last. -/
inductive Tally : List Value → Option Value → Prop
  | absent : Tally [] none
  | gauge {vs : List Value} {x : Real64} (h : ∀ v ∈ vs, v.kind = .gauge) :
    Tally (vs ++ [.gauge x]) (some (.gauge x))
  | counter {vs : List Value} {n : Int64} (ne : vs ≠ []) (h : ∀ v ∈ vs, v.kind = .counter)
    (sum : n.toInt = (vs.map Value.delta).sum) : Tally vs (some (.counter n))

namespace Tally

theorem kind_append {k : Kind} {vs : List Value} {x : Value} (h : ∀ v ∈ vs, v.kind = k)
    (hx : x.kind = k) : ∀ v ∈ vs ++ [x], v.kind = k := by
  intro v hv
  rcases List.mem_append.1 hv with hv | hv
  · exact h v hv
  · rw [List.mem_singleton.1 hv, hx]

theorem merge {name : String} {vs : List Value} {stored : Option Value} {incoming x : Value}
    (h : Tally vs stored)
    (hx : stored = none ∧ x = incoming ∨ ∃ s, stored = some s ∧ s.merge name incoming = .ok x) :
    Tally (vs ++ [incoming]) (some x) := by
  rcases hx with ⟨rfl, rfl⟩ | ⟨s, rfl, hs⟩
  · cases h
    cases x with
    | gauge x => exact .gauge (by simp)
    | counter n => exact .counter (by simp) (by simp [Value.kind]) (by simp [Value.delta])
  · rcases Value.merge_eq_ok_iff.1 hs with ⟨y, z, rfl, rfl, rfl⟩ | ⟨n, d, t, rfl, rfl, rfl, ht⟩
    · cases h with
      | gauge h => exact .gauge (kind_append h rfl)
    · cases h with
      | counter ne h sum => exact .counter (by simp) (kind_append h rfl) (by simp [ht, sum, Value.delta])

theorem eq_none_iff {vs : List Value} {r : Option Value} (h : Tally vs r) :
    r = none ↔ vs = [] := by
  cases h with
  | absent => simp
  | gauge h => simp
  | counter ne h sum => simp [ne]

theorem eq_gauge_iff {vs : List Value} {r : Option Value} (h : Tally vs r) (x : Real64) :
    r = some (.gauge x) ↔ vs.getLast? = some (.gauge x) := by
  cases h with
  | absent => simp
  | gauge h => simp
  | @counter vs n ne h sum =>
    constructor
    · intro hn
      cases hn
    · intro hlast
      have hx := h _ (List.mem_of_getLast? hlast)
      cases hx

theorem eq_counter_iff {vs : List Value} {r : Option Value} (h : Tally vs r) (n : Int64) :
    r = some (.counter n) ↔
      (∃ v ∈ vs, v.kind = .counter) ∧ n.toInt = (vs.map Value.delta).sum := by
  cases h with
  | absent => simp
  | @gauge vs x h =>
    constructor
    · intro hn
      cases hn
    · rintro ⟨⟨v, hv, hk⟩, -⟩
      have hg := kind_append h (rfl : (Value.gauge x).kind = .gauge) v hv
      rw [hk] at hg
      cases hg
  | @counter vs m ne h sum =>
    obtain ⟨v, hv⟩ := List.exists_mem_of_ne_nil vs ne
    constructor
    · intro hn
      cases hn
      exact ⟨⟨v, hv, h v hv⟩, sum⟩
    · rintro ⟨-, hn⟩
      rw [Int64.toInt_inj.1 (sum.trans hn.symm)]

end Tally

theorem Memory.Posted.tally {v v' : Memory} {es : List Metric} (h : v.Posted es v')
    (past : String → List Value) (hv : ∀ name, Tally (past name) (v.find? name)) (name : String) :
    Tally (past name ++ history name es) (v'.find? name) := by
  obtain ⟨-, h⟩ := h
  induction es generalizing v past with
  | nil =>
    cases h
    simpa [history] using hv name
  | cons m es ih =>
    rw [List.foldlM_cons, bind_eq_ok_iff] at h
    obtain ⟨w, hw, h⟩ := h
    obtain ⟨x, rfl, hx⟩ := merge_eq_ok_iff.1 hw
    have step (key : String) :
        Tally (past key ++ history key [m]) ((v.insert m.name x).find? key) := by
      rw [SortedMap.find?_insert]
      by_cases hk : key = m.name
      · subst hk
        simpa [history] using (hv m.name).merge hx
      · simpa [history, hk, Ne.symm hk] using hv key
    have rest := ih _ step h
    rwa [List.append_assoc, ← history_append] at rest

/-- The exact sum of what metrics add to a name. -/
def booked (name : String) (ms : List Metric) : ℤ := ((history name ms).map Value.delta).sum

theorem booked_append (name : String) (ms ns : List Metric) :
    booked name (ms ++ ns) = booked name ms + booked name ns := by
  rw [booked, history_append, List.map_append, List.sum_append]
  rfl

theorem booked_cons (name : String) (m : Metric) (ms : List Metric) :
    booked name (m :: ms) = booked name [m] + booked name ms := booked_append name [m] ms

theorem booked_tick (name : String) : booked name [.tick] = if name = pollCount then 1 else 0 := by
  by_cases h : name = pollCount
  · rw [if_pos h, h]
    decide
  · have absent : ¬pollCount = name := fun e => h e.symm
    simp [booked, history, Metric.tick, absent, h]

theorem booked_counted (name : String) (m : Metric) :
    booked name m.counted =
      booked name [m] + if name = pollCount then (if m.kind = .gauge then 1 else 0) else 0 := by
  unfold Metric.counted
  cases m.kind with
  | gauge => rw [booked_cons, booked_tick]; simp
  | counter => simp

theorem booked_counted_batch (name : String) (batch : List Metric) :
    booked name (batch.flatMap Metric.counted) =
      booked name batch +
        if name = pollCount then (batch.countP (·.kind = .gauge) : ℤ) else 0 := by
  induction batch with
  | nil => simp [booked, history]
  | cons m batch ih =>
    rw [List.flatMap_cons, booked_append, booked_counted, ih, booked_cons name m batch,
      List.countP_cons]
    by_cases hp : name = pollCount <;> by_cases hk : m.kind = .gauge <;> simp [hp, hk] <;> omega

def written (ws : List Write) : List Metric := ws.flatMap Write.metrics

def polls (ws : List Write) : ℕ := (ws.map Write.polls).sum

theorem booked_entries (name : String) (w : Write) :
    booked name w.entries = booked name w.metrics + if name = pollCount then (w.polls : ℤ) else 0 := by
  cases w with
  | set m =>
    have h := booked_counted_batch name [m]
    rwa [List.flatMap_singleton] at h
  | setAll batch => exact booked_counted_batch name batch
  | restore m => simp [Write.entries, Write.metrics, Write.polls]

theorem booked_flatMap_entries (name : String) (ws : List Write) :
    booked name (ws.flatMap Write.entries) =
      booked name (written ws) + if name = pollCount then (polls ws : ℤ) else 0 := by
  induction ws with
  | nil => simp [written, polls, booked, history]
  | cons w ws ih =>
    rw [List.flatMap_cons, booked_append, booked_entries, ih]
    simp only [written, polls, List.flatMap_cons, List.map_cons, List.sum_cons, booked_append]
    split_ifs <;> push_cast <;> omega

theorem mem_counted {e m : Metric} : e ∈ m.counted ↔ e = m ∨ e = .tick ∧ m.kind = .gauge := by
  unfold Metric.counted
  cases m.kind with
  | gauge => simp
  | counter => simp

theorem mem_counted_batch {e : Metric} (batch : List Metric) :
    e ∈ batch.flatMap Metric.counted ↔
      e ∈ batch ∨ e = .tick ∧ 0 < batch.countP (·.kind = .gauge) := by
  simp only [List.mem_flatMap, mem_counted, List.countP_pos_iff, decide_eq_true_eq]
  constructor
  · rintro ⟨m, hm, rfl | ⟨rfl, hk⟩⟩
    · exact Or.inl hm
    · exact Or.inr ⟨rfl, m, hm, hk⟩
  · rintro (hm | ⟨rfl, m, hm, hk⟩)
    · exact ⟨e, hm, Or.inl rfl⟩
    · exact ⟨m, hm, Or.inr ⟨rfl, hk⟩⟩

theorem mem_entries {e : Metric} {w : Write} :
    e ∈ w.entries ↔ e ∈ w.metrics ∨ e = .tick ∧ 0 < w.polls := by
  cases w with
  | set m =>
    have h := mem_counted_batch (e := e) [m]
    rwa [List.flatMap_singleton] at h
  | setAll batch => exact mem_counted_batch batch
  | restore m => simp [Write.entries, Write.metrics, Write.polls]

theorem mem_flatMap_entries {e : Metric} {ws : List Write} :
    e ∈ ws.flatMap Write.entries ↔ e ∈ written ws ∨ e = .tick ∧ 0 < polls ws := by
  induction ws with
  | nil => simp [written, polls]
  | cons w ws ih =>
    rw [List.flatMap_cons, List.mem_append, mem_entries, ih]
    simp only [written, polls, List.flatMap_cons, List.mem_append, List.map_cons, List.sum_cons,
      Nat.add_pos_iff_pos_or_pos]
    tauto

theorem history_flatMap {α : Type} (name : String) (f : α → List Metric) (as : List α) :
    history name (as.flatMap f) = as.flatMap fun a => history name (f a) := by
  simp [history, List.filter_flatMap, List.map_flatMap]

/-- Ticks are no news for any other name. -/
theorem history_counted_batch {name : String} (h : name ≠ pollCount) (batch : List Metric) :
    history name (batch.flatMap Metric.counted) = history name batch := by
  have tick : history name [.tick] = [] := by simp [history, Metric.tick, h.symm]
  have one (m : Metric) : history name m.counted = history name [m] := by
    unfold Metric.counted
    cases m.kind with
    | gauge => rw [← List.singleton_append, history_append, tick, List.append_nil]
    | counter => rfl
  rw [history_flatMap]
  simp only [one]
  rw [← history_flatMap, List.flatMap_singleton']

theorem history_entries {name : String} (h : name ≠ pollCount) (ws : List Write) :
    history name (ws.flatMap Write.entries) = history name (written ws) := by
  have one (w : Write) : history name w.entries = history name w.metrics := by
    cases w with
    | set m =>
      have hm := history_counted_batch h [m]
      rwa [List.flatMap_singleton] at hm
    | setAll batch => exact history_counted_batch h batch
    | restore m => rfl
  rw [written, history_flatMap, history_flatMap]
  simp only [one]

/-- What the names of a store hold after the accepted calls `ws`. -/
structure Accounts (ws : List Write) (s : Store) : Prop where
  counter (name : String) (n : Int64) :
    s.metric name = .ok ⟨name, .counter n⟩ ↔
      ((∃ m ∈ written ws, m.name = name ∧ m.kind = .counter) ∨ name = pollCount ∧ 0 < polls ws) ∧
        n.toInt = booked name (written ws) + if name = pollCount then (polls ws : ℤ) else 0
  gauge (name : String) (x : Real64) :
    s.metric name = .ok ⟨name, .gauge x⟩ ↔
      ∃ y, (history name (written ws)).getLast? = some (.gauge y) ∧ s.shown (.gauge y) = .gauge x
  present (name : String) :
    (∃ m, s.metric name = .ok m) ↔
      (∃ m ∈ written ws, m.name = name) ∨ name = pollCount ∧ 0 < polls ws

theorem getLast?_history_entries {ws : List Write}
    (h : ∀ m ∈ ws.flatMap Write.entries, m.validate = .ok ()) (name : String) (x : Real64) :
    (history name (ws.flatMap Write.entries)).getLast? = some (.gauge x) ↔
      (history name (written ws)).getLast? = some (.gauge x) := by
  by_cases hp : name = pollCount
  · -- a valid gauge has another name
    have absent : ⟨name, .gauge x⟩ ∉ ws.flatMap Write.entries := fun hm =>
      ((Metric.validate_eq_ok_iff.1 (h _ hm)).2 x rfl).1 hp
    constructor
    · intro hlast
      exact absurd (mem_history.1 (List.mem_of_getLast? hlast)) absent
    · intro hlast
      have hm := mem_history.1 (List.mem_of_getLast? hlast)
      exact absurd (mem_flatMap_entries.2 (Or.inl hm)) absent
  · rw [history_entries hp]

theorem accounts_holding {ws : List Write} {v : Memory} (s : Store)
    (h : Memory.empty.Posted (ws.flatMap Write.entries) v) : Accounts ws (s.holding v) := by
  have tally (name : String) : Tally (history name (ws.flatMap Write.entries)) (v.find? name) :=
    h.tally (fun _ => []) (fun _ => .absent) name
  have counters (name : String) : (∃ x ∈ history name (ws.flatMap Write.entries), x.kind = .counter) ↔
      (∃ m ∈ written ws, m.name = name ∧ m.kind = .counter) ∨ name = pollCount ∧ 0 < polls ws := by
    constructor
    · rintro ⟨x, hx, hk⟩
      rcases mem_flatMap_entries.1 (mem_history.1 hx) with hm | ⟨hm, hp⟩
      · exact Or.inl ⟨_, hm, rfl, hk⟩
      · exact Or.inr ⟨congrArg Metric.name hm, hp⟩
    · rintro (⟨m, hm, rfl, hk⟩ | ⟨rfl, hp⟩)
      · exact ⟨m.value, mem_history.2 (mem_flatMap_entries.2 (Or.inl hm)), hk⟩
      · exact ⟨.counter 1, mem_history.2 (mem_flatMap_entries.2 (Or.inr ⟨rfl, hp⟩)), rfl⟩
  constructor
  case counter =>
    intro name n
    rw [Store.metric_holding_eq_ok_iff, ← counters, ← booked_flatMap_entries, booked,
      ← (tally name).eq_counter_iff]
    constructor
    · rintro ⟨x, hx, hm⟩
      rw [hx, Store.shown_eq_counter_iff.1 (congrArg Metric.value hm).symm]
    · intro hn
      exact ⟨_, hn, rfl⟩
  case gauge =>
    intro name x
    rw [Store.metric_holding_eq_ok_iff, Store.shown_holding]
    simp only [← getLast?_history_entries h.valid, ← (tally name).eq_gauge_iff]
    constructor
    · rintro ⟨y, hy, hm⟩
      cases y with
      | gauge y => exact ⟨y, hy, (congrArg Metric.value hm).symm⟩
      | counter n => cases congrArg Metric.value hm
    · rintro ⟨y, hy, hx⟩
      exact ⟨_, hy, by rw [hx]⟩
  case present =>
    intro name
    have found : (∃ m, (s.holding v).metric name = .ok m) ↔
        history name (ws.flatMap Write.entries) ≠ [] := by
      rw [ne_eq, ← (tally name).eq_none_iff, Store.metric_holding]
      cases v.find? name <;> simp
    rw [found]
    constructor
    · intro hne
      obtain ⟨x, hx⟩ := List.exists_mem_of_ne_nil _ hne
      rcases mem_flatMap_entries.1 (mem_history.1 hx) with hm | ⟨hm, hp⟩
      · exact Or.inl ⟨_, hm, rfl⟩
      · exact Or.inr ⟨congrArg Metric.name hm, hp⟩
    · rintro (⟨m, hm, rfl⟩ | ⟨rfl, hp⟩)
      · exact List.ne_nil_of_mem (mem_history.2 (mem_flatMap_entries.2 (Or.inl hm)))
      · exact List.ne_nil_of_mem (mem_history.2 (mem_flatMap_entries.2 (Or.inr ⟨rfl, hp⟩)))

def counters (ws : List Write) : List Metric := (written ws).filter (·.kind = .counter)

theorem mem_counters {m : Metric} {ws : List Write} :
    m ∈ counters ws ↔ m ∈ written ws ∧ m.kind = .counter := by
  simp [counters]

theorem booked_perm {ms ns : List Metric} (h : ms.Perm ns) (name : String) :
    booked name ms = booked name ns := ((h.filter _).map _).map _ |>.sum_eq

theorem booked_counters (name : String) (ws : List Write) :
    booked name (counters ws) = booked name (written ws) := by
  unfold counters
  induction written ws with
  | nil => rfl
  | cons m ms ih =>
    obtain ⟨n, value⟩ := m
    rw [booked_cons name _ ms, ← ih]
    cases value with
    | gauge x =>
      have nothing : booked name [⟨n, .gauge x⟩] = 0 := by
        by_cases hn : n = name <;> simp [booked, history, hn, Value.delta]
      rw [nothing, zero_add]
      rfl
    | counter d => exact booked_cons name _ _

theorem Accounts.counter_congr {ws ws' : List Write} {s s' : Store} (h : Accounts ws s)
    (h' : Accounts ws' s') (hperm : (counters ws).Perm (counters ws')) {name : String}
    (hpolls : name = pollCount → polls ws = polls ws') (n : Int64) :
    s.metric name = .ok ⟨name, .counter n⟩ ↔ s'.metric name = .ok ⟨name, .counter n⟩ := by
  have same (m : Metric) : m ∈ written ws ∧ m.kind = .counter ↔
      m ∈ written ws' ∧ m.kind = .counter := by
    rw [← mem_counters, ← mem_counters, hperm.mem_iff]
  have touched : (∃ m ∈ written ws, m.name = name ∧ m.kind = .counter) ↔
      ∃ m ∈ written ws', m.name = name ∧ m.kind = .counter := by
    refine exists_congr fun m => ?_
    rw [and_left_comm, same, and_left_comm]
  rw [h.counter, h'.counter, touched, ← booked_counters name ws, booked_perm hperm,
    booked_counters]
  by_cases hp : name = pollCount
  · rw [hpolls hp]
  · simp only [hp, if_false, false_and]

/-- What a new repository holds after a run of calls is decided by the calls that it accepts, and
of those the counters may come in any order. -/
theorem accounts_balance {r : Repository} (h : r.store.Fresh) (ws : List Write) :
    Accounts (r.accepted ws) (r.after ws).store ∧
    (r.accepted (r.accepted ws) = r.accepted ws ∧ r.after (r.accepted ws) = r.after ws) ∧
    ∀ ws' : List Write, (counters (r.accepted ws)).Perm (counters (r.accepted ws')) →
      ∀ name, (name = pollCount → polls (r.accepted ws) = polls (r.accepted ws')) →
        ∀ n, (r.after ws).store.metric name = .ok ⟨name, .counter n⟩ ↔
          (r.after ws').store.metric name = .ok ⟨name, .counter n⟩ := by
  have balance (ws : List Write) : Accounts (r.accepted ws) (r.after ws).store := by
    obtain ⟨v, hstore, hposted⟩ := Repository.after_posted h.holding_empty.symm ws
    rw [hstore]
    exact accounts_holding r.store hposted
  refine ⟨balance ws, ⟨r.accepted_accepted ws, r.after_accepted ws⟩,
    fun ws' hperm name hpolls n => ?_⟩
  exact (balance ws).counter_congr (balance ws') hperm hpolls n

/-- A refused batch in the middle books nothing, not even its gauge. -/
theorem accounts_balance_around_refusal :
    let r : Repository := ⟨.memory .empty, none⟩
    let ws : List Write := [.set ⟨"hits", .counter 2⟩,
      .setAll [⟨"temp", .gauge .zero⟩, ⟨"hits", .counter 5⟩, ⟨"temp", .counter 1⟩],
      .set ⟨"temp", .gauge .zero⟩, .restore ⟨"hits", .counter 1⟩]
    r.store.Fresh ∧ (r.after ws).store.metric "hits" = .ok ⟨"hits", .counter 3⟩ ∧
      (r.after ws).store.metric pollCount = .ok ⟨pollCount, .counter 1⟩ := by
  intro r ws
  have accounts := (accounts_balance (r := r) .memory ws).1
  exact ⟨.memory, (accounts.counter "hits" 3).2 (by decide),
    (accounts.counter pollCount 1).2 (by decide)⟩

end Telemetry
