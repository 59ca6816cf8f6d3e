import Telemetry.Backup.Restore
import Telemetry.Proofs.Entries
import Telemetry.Proofs.Utf8

/-! What holds of every store that calls and replays of backups lead to. Each of them posts valid
entries, whether it is refused or not, and posting a valid entry keeps the values valid, keeps every
name and keeps its kind. The rest is read off the values. -/

namespace Telemetry

open Storage (Error)

theorem Value.kind_merge {name : String} {stored incoming x : Value}
    (h : stored.merge name incoming = .ok x) : x.kind = stored.kind := by
  rcases merge_eq_ok_iff.1 h with ⟨_, _, rfl, rfl, rfl⟩ | ⟨_, _, _, rfl, rfl, rfl, -⟩
  · rfl
  · rfl

/-- What two valid writes to a name are merged into could be written there as well. -/
theorem Metric.validate_merge {name : String} {stored incoming x : Value}
    (hm : (Metric.mk name incoming).validate = .ok ())
    (h : stored.merge name incoming = .ok x) : (Metric.mk name x).validate = .ok () := by
  obtain ⟨hname, hgauge⟩ := validate_eq_ok_iff.1 hm
  refine validate_eq_ok_iff.2 ⟨hname, fun y hy => ?_⟩
  simp only at hy
  subst hy
  rcases Value.merge_eq_ok_iff.1 h with ⟨_, _, -, rfl, hx⟩ | ⟨_, _, _, -, -, hx, -⟩
  · exact hgauge y (congrArg Value.gauge (Value.gauge.inj hx).symm)
  · cases hx

namespace Memory

/-- Names ascend, and each could be written with the value it holds. -/
structure Valid (v : Memory) : Prop where
  sorted : SortedMap.Sorted v
  entries : ∀ e ∈ v, (Metric.mk e.1 e.2).validate = .ok ()

theorem valid_empty : Valid .empty := ⟨SortedMap.sorted_nil, fun _ he => absurd he List.not_mem_nil⟩

/-- No name is lost, and none changes its kind. -/
def Grows (v v' : Memory) : Prop :=
  ∀ name x, v.find? name = some x → ∃ y, v'.find? name = some y ∧ y.kind = x.kind

theorem Grows.refl (v : Memory) : v.Grows v := fun _ x hx => ⟨x, hx, rfl⟩

theorem Grows.trans {v v' v'' : Memory} (h : v.Grows v') (h' : v'.Grows v'') : v.Grows v'' := by
  intro name x hx
  obtain ⟨y, hy, hk⟩ := h name x hx
  obtain ⟨z, hz, hk'⟩ := h' name y hy
  exact ⟨z, hz, hk'.trans hk⟩

theorem merge_valid {v v' : Memory} {m : Metric} (hm : m.validate = .ok ()) (hv : v.Valid)
    (h : v.merge m = .ok v') : v'.Valid := by
  obtain ⟨x, rfl, hx⟩ := merge_eq_ok_iff.1 h
  refine ⟨SortedMap.sorted_insert hv.sorted m.name x, fun e he => ?_⟩
  rcases SortedMap.mem_insert he with rfl | he
  · rcases hx with ⟨-, rfl⟩ | ⟨stored, -, hs⟩
    · exact hm
    · exact Metric.validate_merge hm hs
  · exact hv.entries e he

theorem merge_grows {v v' : Memory} {m : Metric} (h : v.merge m = .ok v') : v.Grows v' := by
  obtain ⟨x, rfl, hx⟩ := merge_eq_ok_iff.1 h
  intro name y hy
  rw [SortedMap.find?_insert]
  split_ifs with hname
  · subst hname
    rcases hx with ⟨hnone, -⟩ | ⟨stored, hstored, hs⟩
    · rw [hnone] at hy
      cases hy
    · rw [hstored] at hy
      cases hy
      exact ⟨x, rfl, Value.kind_merge hs⟩
  · exact ⟨y, hy, rfl⟩

theorem Posted.induct {v v' : Memory} {es : List Metric} (h : v.Posted es v')
    {P : Memory → Prop} (hv : P v)
    (step : ∀ w w' m, m.validate = .ok () → P w → w.merge m = .ok w' → P w') : P v' :=
  foldlM_keeps (fun m hm w w' => step w w' m (h.valid m hm)) hv h.merged

theorem Posted.valid_values {v v' : Memory} {es : List Metric} (h : v.Posted es v') (hv : v.Valid) :
    v'.Valid := h.induct hv fun _ _ _ hm hw hmerge => merge_valid hm hw hmerge

theorem Posted.grows {v v' : Memory} {es : List Metric} (h : v.Posted es v') : v.Grows v' :=
  h.induct (Grows.refl v) fun _ _ _ _ hw hmerge => hw.trans (merge_grows hmerge)

end Memory

namespace Store

/-- What may happen to a store: a call, or the replay of the backup at a path. -/
inductive Event
  | call (w : Write)
  | replay (path : String) (directory : Directory)

def next (s : Store) : Event → Store
  | .call w =>
    match s.apply w with
    | .ok s => s
    | .error _ => s
  | .replay path directory => (Backup.restore path directory s).1

def reach (s : Store) (events : List Event) : Store := events.foldl next s

theorem replay_posted (s : Store) (v : Memory) (path : String) (line count : ℕ)
    (lines : List (List UInt8)) :
    ∃ v' es, (Backup.replay path line count (s.holding v) lines).1 = s.holding v' ∧
      v.Posted es v' := by
  induction lines generalizing line count v with
  | nil => exact ⟨v, [], rfl, .nil v⟩
  | cons bytes rest ih =>
    rw [Backup.replay]
    cases Backup.readLine path line bytes with
    | error e => exact ⟨v, [], rfl, .nil v⟩
    | ok read =>
      cases read with
      | none => exact ih v (line + 1) count
      | some m =>
        have run := apply_holding s v (.restore m)
        simp only [Backup.replayMetric]
        rcases run.outcome with ⟨why, -, hs⟩ | ⟨v₁, t, hv, hs, rfl⟩
        · rw [show (s.holding v).restore m = _ from hs]
          exact ⟨v, [], rfl, .nil v⟩
        · rw [show (s.holding v).restore m = _ from hs]
          obtain ⟨v', es, hrest, hposted⟩ := ih v₁ (line + 1) (count + 1)
          exact ⟨v', _, hrest, (Memory.apply_posted hv).append hposted⟩

theorem next_posted (s : Store) (v : Memory) (e : Event) :
    ∃ v' es, (s.holding v).next e = s.holding v' ∧ v.Posted es v' := by
  cases e with
  | call w =>
    rw [next]
    rcases (apply_holding s v w).outcome with ⟨why, -, hs⟩ | ⟨v', t, hv, hs, rfl⟩
    · rw [hs]
      exact ⟨v, [], rfl, .nil v⟩
    · rw [hs]
      exact ⟨v', _, rfl, Memory.apply_posted hv⟩
  | replay path directory =>
    rw [next, Backup.restore]
    cases directory.entry path with
    | absent => exact ⟨v, [], rfl, .nil v⟩
    | unreadable => exact ⟨v, [], rfl, .nil v⟩
    | file content => exact replay_posted s v path 1 0 _

theorem reach_posted (s : Store) (v : Memory) (events : List Event) :
    ∃ v' es, (s.holding v).reach events = s.holding v' ∧ v.Posted es v' := by
  induction events generalizing v with
  | nil => exact ⟨v, [], rfl, .nil v⟩
  | cons e events ih =>
    obtain ⟨v₁, es, hnext, hfirst⟩ := next_posted s v e
    obtain ⟨v', fs, hreach, hrest⟩ := ih v₁
    refine ⟨v', es ++ fs, ?_, hfirst.append hrest⟩
    rw [reach, List.foldl_cons, hnext]
    exact hreach

theorem Fresh.exists_holding {s : Store} (h : s.Fresh) (events : List Event) :
    ∃ v : Memory, s.reach events = s.holding v ∧ v.Valid := by
  obtain ⟨v, es, hreach, hposted⟩ := s.reach_posted .empty events
  rw [h.holding_empty] at hreach
  exact ⟨v, hreach, hposted.valid_values Memory.valid_empty⟩

def names : Store → List String
  | memory values => values.map (·.1)
  | database _ content => (content.table.getD []).map (·.1)

theorem names_holding (s : Store) (v : Memory) : (s.holding v).names = v.map (·.1) := by
  cases s with
  | memory values => rfl
  | database path content => exact List.map_map

/-- A store that lists these metrics: all that is stored, each once and valid, and the same that it
gives for a single name. -/
structure Lists (s : Store) (ms : List Metric) : Prop where
  metrics : s.metrics = .ok ms
  names : ms.map (·.name) = s.names
  ascending : ms.Pairwise fun a b => Json.utf8 a.name < Json.utf8 b.name
  named : ∀ m ∈ ms, m.name ≠ ""
  gauges : ∀ m ∈ ms, ∀ x, m.value = .gauge x → x.isFinite ∧ m.name ≠ pollCount
  counters : ∀ m ∈ ms, ∀ n, m.value = .counter n → -2 ^ 63 ≤ n.toInt ∧ n.toInt < 2 ^ 63
  single : ∀ name m, s.metric name = .ok m ↔ m ∈ ms ∧ m.name = name
  missing : ∀ name, (∀ m ∈ ms, m.name ≠ name) → s.metric name = .error (.notFound name)

theorem isFinite_columnReal {x : Real64} (h : x.isFinite) : (Row.columnReal x).isFinite := by
  unfold Row.columnReal
  split_ifs
  · decide
  · exact h

theorem isFinite_shown {s : Store} {x y : Real64} (h : x.isFinite)
    (hy : s.shown (.gauge x) = .gauge y) : y.isFinite := by
  cases s with
  | memory values =>
    cases hy
    exact h
  | database path content =>
    cases hy
    exact isFinite_columnReal h

theorem lists_holding (s : Store) {v : Memory} (hv : v.Valid) :
    (s.holding v).Lists (v.map fun e => ⟨e.1, s.shown e.2⟩) where
  metrics := metrics_holding s v
  names := by
    rw [names_holding, List.map_map]
    rfl
  ascending := List.pairwise_map.2 (hv.sorted.imp Json.utf8_lt)
  named := by
    intro m hm
    obtain ⟨e, he, rfl⟩ := List.mem_map.1 hm
    exact (Metric.validate_eq_ok_iff.1 (hv.entries e he)).1
  gauges := by
    intro m hm y hy
    obtain ⟨⟨name, x⟩, he, rfl⟩ := List.mem_map.1 hm
    cases x with
    | gauge x =>
      obtain ⟨hname, hx⟩ := (Metric.validate_eq_ok_iff.1 (hv.entries _ he)).2 x rfl
      exact ⟨isFinite_shown hx hy, hname⟩
    | counter n => cases hy
  counters := fun _ _ n _ => ⟨Int64.le_toInt n, Int64.toInt_lt n⟩
  single := by
    intro name m
    simp only [metric_holding_eq_ok_iff, SortedMap.find?_eq_some_iff hv.sorted, List.mem_map]
    constructor
    · rintro ⟨x, hx, rfl⟩
      exact ⟨⟨_, hx, rfl⟩, rfl⟩
    · rintro ⟨⟨⟨_, x⟩, hx, rfl⟩, rfl⟩
      exact ⟨x, hx, rfl⟩
  missing := by
    intro name h
    have absent : v.find? name = none :=
      SortedMap.find?_eq_none_iff.2 fun e he => h _ (List.mem_map_of_mem he)
    rw [metric_holding, absent]

theorem Lists.validate {s : Store} {ms : List Metric} (h : s.Lists ms) {m : Metric} (hm : m ∈ ms) :
    m.validate = .ok () :=
  Metric.validate_eq_ok_iff.2 ⟨h.named m hm, fun x hx => (h.gauges m hm x hx).symm⟩

theorem names_ascending {s : Store} (h : s.Fresh) (events : List Event) :
    (s.reach events).names.Pairwise (· < ·) := by
  obtain ⟨v, hreach, hv⟩ := h.exists_holding events
  rw [hreach, names_holding]
  exact List.pairwise_map.2 hv.sorted

def ofRow (e : String × Row) : Except Error (Option Metric) :=
  do .ok ((← e.2.read).map fun value => ⟨e.1, value⟩)

theorem ofRow_eq_ok_iff {e : String × Row} {m : Metric} :
    ofRow e = .ok (some m) ↔ e.1 = m.name ∧ e.2.read = .ok (some m.value) := by
  obtain ⟨name, row⟩ := e
  obtain ⟨name', value'⟩ := m
  rw [ofRow]
  cases row.read with
  | error why => simp [bind, Except.bind]
  | ok value => simp [bind, Except.bind, Option.map_eq_some_iff, and_comm]

theorem names_of_rows {t : Table} {read : List (Option Metric)} (h : t.mapM ofRow = .ok read) :
    ((read.filterMap id).map Metric.name).Sublist (t.map Prod.fst) := by
  induction t generalizing read with
  | nil =>
    obtain rfl := Except.ok.inj h
    exact .slnil
  | cons e t ih =>
    rw [List.mapM_cons] at h
    obtain ⟨first, hfirst, h⟩ := bind_eq_ok_iff.1 h
    obtain ⟨rest, hrest, h⟩ := bind_eq_ok_iff.1 h
    obtain rfl := Except.ok.inj h
    cases first with
    | none => exact (ih hrest).cons _
    | some m =>
      rw [List.map_cons, (ofRow_eq_ok_iff.1 hfirst).1]
      exact (ih hrest).cons_cons _

theorem metric_memory_eq_ok_iff {values : Memory} {name : String} {m : Metric} :
    (memory values).metric name = .ok m ↔ values.find? name = some m.value ∧ m.name = name := by
  obtain ⟨name', value⟩ := m
  simp only [metric, Memory.metric?]
  cases values.find? name with
  | none => simp
  | some found => simp [and_comm, eq_comm]

theorem metric_database_eq_ok_iff {path : Option String} {version : Int} {t : Table} {name : String}
    {m : Metric} :
    (database path ⟨version, some t⟩).metric name = .ok m ↔
      ∃ row, t.find? name = some row ∧ ofRow (name, row) = .ok (some m) := by
  simp only [metric, Database.metric]
  cases t.find? name with
  | none => simp
  | some row =>
    simp only [ofRow, Option.some.injEq, exists_eq_left']
    cases row.read with
    | error why => simp [bind, Except.bind]
    | ok value => cases value <;> simp [bind, Except.bind]

/-- What a store lists whose names ascend: the same that it gives for single names, in their order. -/
theorem metrics_of_names {s : Store} (sorted : s.names.Pairwise (· < ·)) {ms : List Metric}
    (h : s.metrics = .ok ms) :
    (ms.Pairwise fun a b => Json.utf8 a.name < Json.utf8 b.name) ∧
      ∀ name m, s.metric name = .ok m ↔ m ∈ ms ∧ m.name = name := by
  cases s with
  | memory values =>
    have ascending : values.Sorted := List.pairwise_map.1 sorted
    obtain rfl := Except.ok.inj h
    refine ⟨List.pairwise_map.2 (ascending.imp Json.utf8_lt), fun name m => ?_⟩
    have listed : m ∈ values.metrics ↔ (m.name, m.value) ∈ values := by
      obtain ⟨name', value⟩ := m
      simp [Memory.metrics]
    rw [metric_memory_eq_ok_iff, listed, SortedMap.find?_eq_some_iff ascending]
    constructor
    · rintro ⟨hmem, rfl⟩
      exact ⟨hmem, rfl⟩
    · rintro ⟨hmem, rfl⟩
      exact ⟨hmem, rfl⟩
  | database path content =>
    obtain ⟨version, table⟩ := content
    cases table with
    | none => cases h
    | some t =>
      obtain ⟨read, hread, h⟩ := bind_eq_ok_iff.1 h
      obtain rfl := Except.ok.inj h
      have ascending : t.Sorted := List.pairwise_map.1 sorted
      have names : ((read.filterMap id).map Metric.name).Pairwise (· < ·) :=
        sorted.sublist (names_of_rows hread)
      refine ⟨(List.pairwise_map.1 names).imp Json.utf8_lt, fun name m => ?_⟩
      have listed : m ∈ read.filterMap id ↔ ∃ e ∈ t, ofRow e = .ok (some m) := by
        simp only [List.mem_filterMap, id_eq, exists_eq_right]
        refine ⟨exists_of_mem_mapM_ok hread, ?_⟩
        rintro ⟨e, he, hm⟩
        exact mem_of_mem_mapM_ok hread he hm
      rw [metric_database_eq_ok_iff, listed]
      simp only [SortedMap.find?_eq_some_iff ascending]
      constructor
      · rintro ⟨row, hrow, hm⟩
        exact ⟨⟨_, hrow, hm⟩, (ofRow_eq_ok_iff.1 hm).1.symm⟩
      · rintro ⟨⟨⟨name', row⟩, hrow, hm⟩, rfl⟩
        obtain rfl : name' = m.name := (ofRow_eq_ok_iff.1 hm).1
        exact ⟨row, hrow, hm⟩

end Store

/-- Whatever happened to a store that was new, everything in it is valid and listed in the order of
the bytes of its name; whatever happens later, it stays there and keeps its kind. -/
theorem reachable_stores_stay_valid {s : Store} (h : s.Fresh) (events : List Store.Event) :
    ∃ ms, (s.reach events).Lists ms ∧
      ∀ later, ∃ ms', ((s.reach events).reach later).Lists ms' ∧
        ∀ m ∈ ms, ∃ m' ∈ ms', m'.name = m.name ∧ m'.kind = m.kind := by
  obtain ⟨v, es, hreach, hposted⟩ := s.reach_posted .empty events
  rw [h.holding_empty] at hreach
  have hv := hposted.valid_values Memory.valid_empty
  rw [hreach]
  refine ⟨_, s.lists_holding hv, fun later => ?_⟩
  obtain ⟨v', fs, hlater, hposted'⟩ := s.reach_posted v later
  have hv' := hposted'.valid_values hv
  rw [hlater]
  refine ⟨_, s.lists_holding hv', fun m hm => ?_⟩
  obtain ⟨⟨name, x⟩, he, rfl⟩ := List.mem_map.1 hm
  obtain ⟨y, hy, hk⟩ := hposted'.grows name x ((SortedMap.find?_eq_some_iff hv.sorted).2 he)
  refine ⟨_, List.mem_map_of_mem ((SortedMap.find?_eq_some_iff hv'.sorted).1 hy), rfl, ?_⟩
  simp only [Metric.kind, Store.kind_shown]
  exact hk

/-- A gauge that is not finite and a line that is no record leave nothing behind. -/
theorem restored_store_stays_valid :
    let folder : Directory :=
      ⟨[("kept", "\x7b\"id\":\"hits\",\"type\":\"counter\",\"delta\":3\x7d\nhits".toUTF8)], []⟩
    let events : List Store.Event := [.call (.set ⟨"load", .gauge (.infinity false)⟩),
      .replay "kept" folder, .call (.set ⟨"load", .gauge .zero⟩)]
    (Store.memory .empty).Fresh ∧ ((Store.memory .empty).reach events).Lists
      [⟨pollCount, .counter 1⟩, ⟨"hits", .counter 3⟩, ⟨"load", .gauge .zero⟩] := by
  intro folder events
  obtain ⟨ms, hs, -⟩ := reachable_stores_stay_valid .memory events
  have listed : ((Store.memory .empty).reach events).metrics =
      .ok [⟨pollCount, .counter 1⟩, ⟨"hits", .counter 3⟩, ⟨"load", .gauge .zero⟩] := by decide
  rw [← Except.ok.inj (hs.metrics.symm.trans listed)]
  exact ⟨.memory, hs⟩

end Telemetry
