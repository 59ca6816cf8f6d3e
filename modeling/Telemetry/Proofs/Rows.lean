import Telemetry.Proofs.Writes

/-! A database holds the same metrics as a map of values when its rows are those of the map. Every
write on such rows is the write on the map: it fails for the same reason, although the table finds
out about kinds and overflows in its own way, or gives the rows of the map written. So a store of
either kind is its place and a map of values (`Store.holding`). -/

namespace Telemetry

open Storage (Error)

theorem Kind.parse_name (k : Kind) : parse k.name = .ok k := by
  cases k <;> decide

theorem Row.kind_ofMetric (m : Metric) : (ofMetric m).kind = some m.kind.name := by
  obtain ⟨name, value⟩ := m
  cases value <;> rfl

theorem Kind.name_injective {k l : Kind} (h : k.name = l.name) : k = l := by
  have hp := Kind.parse_name k
  rw [h, Kind.parse_name l] at hp
  exact (Except.ok.inj hp).symm

namespace Table

variable {t : Table} {m : Metric} {r : Row}

theorem upsert_absent (h : t.find? m.name = none) :
    t.upsert m = .ok (t.insert m.name (.ofMetric m)) := by
  have checked : t.checkSum m = .ok () := by
    unfold checkSum storedDelta
    rw [h]
    cases m.value <;> rfl
  simp only [upsert, execute, h, checked]
  rfl

theorem upsert_other {k : Kind} (h : t.find? m.name = some r) (hk : r.kind = some k.name)
    (hne : k ≠ m.kind) : t.upsert m = .error (.rejected (.kindMismatch m.name k m.kind)) := by
  have checked : t.checkSum m = .ok () := by
    unfold checkSum storedDelta
    rw [h]
    cases hv : m.value with
    | gauge x => rfl
    | counter d =>
      have gauge : r.kind ≠ some Kind.counter.name := by
        rw [hk]
        intro e
        refine hne ((Kind.name_injective (Option.some.inj e)).trans ?_)
        rw [Metric.kind, hv, Value.kind]
      simp only [if_neg gauge]
  have unchanged : r.kind ≠ some m.kind.name := by
    rw [hk]
    exact fun e => hne (Kind.name_injective (Option.some.inj e))
  have asked : t.storedKind m.name = .ok (some k) := by
    simp only [storedKind, h, hk, Kind.parse_name]
    rfl
  simp only [upsert, execute, h, checked, if_neg unchanged]
  simp [bind, Except.bind, asked]

theorem upsert_gauge {name : String} {x : Real64} (h : t.find? name = some r)
    (hk : r.kind = some Kind.gauge.name) :
    t.upsert ⟨name, .gauge x⟩ =
      .ok (t.insert name { r with value := some (Row.columnReal x) }) := by
  have same : r.kind = some (Metric.mk name (.gauge x)).kind.name := hk
  simp only [upsert, checkSum, execute, h, if_pos same]
  rfl

/-- Only a sum that is in range gets as far as the statement that adds. -/
theorem upsert_counter {name : String} {n d : Int64} (h : t.find? name = some r)
    (hk : r.kind = some Kind.counter.name) (hn : r.delta = some n) :
    t.upsert ⟨name, .counter d⟩ =
      match Text.int64? (n.toInt + d.toInt) with
      | some sum => .ok (t.insert name { r with delta := some sum })
      | none => .error (.rejected (.counterOverflow name n d)) := by
  have same : r.kind = some (Metric.mk name (.counter d)).kind.name := hk
  have stored : t.storedDelta name = some n := by simp only [storedDelta, h, if_pos hk, hn]
  simp only [upsert, checkSum, execute, h, if_pos same, stored, Row.change, hn]
  cases Text.int64? (n.toInt + d.toInt) <;> rfl

end Table

def Table.ofMemory (v : Memory) : Table := v.mapValues fun name x => Row.ofMetric ⟨name, x⟩

theorem Table.mapM_ofMemory {v : Memory} {β : Type} {read : String × Row → Except Error β}
    {f : String → Value → β} (h : ∀ name x, read (name, .ofMetric ⟨name, x⟩) = .ok (f name x)) :
    (ofMemory v).mapM read = .ok (v.map fun e => f e.1 e.2) := by
  unfold ofMemory
  induction v with
  | nil => rfl
  | cons e rest ih =>
    simp only [SortedMap.mapValues, List.map_cons, List.mapM_cons] at ih ⊢
    rw [h, ih]
    rfl

theorem Table.find?_ofMemory (v : Memory) (name : String) :
    (ofMemory v).find? name = (v.find? name).map fun x => .ofMetric ⟨name, x⟩ :=
  SortedMap.find?_mapValues _ v name

theorem Table.insert_ofMemory (v : Memory) (name : String) (x : Value) :
    (ofMemory v).insert name (.ofMetric ⟨name, x⟩) = ofMemory (v.insert name x) :=
  SortedMap.insert_mapValues (fun name x => Row.ofMetric ⟨name, x⟩) v name x

theorem Table.upsert_alike (v : Memory) (m : Metric) :
    Alike Error.rejected (fun v t => ofMemory v = t) (v.merge m) ((ofMemory v).upsert m) := by
  obtain ⟨name, value⟩ := m
  unfold Memory.merge
  cases hv : v.find? name with
  | none =>
    have absent : (ofMemory v).find? name = none := by rw [find?_ofMemory, hv]; rfl
    rw [upsert_absent absent, insert_ofMemory]
    exact .ok rfl
  | some stored =>
    have found : (ofMemory v).find? name = some (.ofMetric ⟨name, stored⟩) := by
      rw [find?_ofMemory, hv]
      rfl
    by_cases hk : stored.kind = value.kind
    · cases stored with
      | gauge x =>
        cases value with
        | gauge y =>
          rw [upsert_gauge found rfl]
          exact .ok (insert_ofMemory v name (.gauge y)).symm
        | counter d => cases hk
      | counter n =>
        cases value with
        | gauge y => cases hk
        | counter d =>
          rw [upsert_counter found rfl rfl]
          simp only [Value.merge]
          cases Text.int64? (n.toInt + d.toInt) with
          | none => exact .error _
          | some sum => exact .ok (insert_ofMemory v name (.counter sum)).symm
    · have kind : (Row.ofMetric ⟨name, stored⟩).kind = some stored.kind.name := Row.kind_ofMetric _
      have other := upsert_other (m := ⟨name, value⟩) found kind hk
      rw [other]
      cases stored <;> cases value <;> first | exact absurd rfl hk | exact .error _

namespace Database

def ofMemory (v : Memory) : Database := ⟨schemaVersion, some (Table.ofMemory v)⟩

theorem valid_alike (m : Metric) : Alike Error.rejected Eq m.validate (valid m) := by
  unfold valid
  cases m.validate with
  | error why => exact .error why
  | ok u => exact .ok rfl

theorem upsert_alike {v : Memory} {d : Database} (h : ofMemory v = d) (m : Metric) :
    Alike Error.rejected (fun v d => ofMemory v = d) (v.merge m) (d.upsert m) := by
  subst h
  have run := Table.upsert_alike v m
  simp only [upsert, ofMemory]
  generalize v.merge m = x, (Table.ofMemory v).upsert m = y at run ⊢
  cases run with
  | error why => exact .error why
  | ok h => exact .ok (congrArg (fun t => Database.mk schemaVersion (some t)) h)

theorem set_alike {v : Memory} {d : Database} (h : ofMemory v = d) (m : Metric) :
    Alike Error.rejected (fun v d => ofMemory v = d) (v.write m) (d.set m) := by
  refine (valid_alike m).bind fun _ _ _ => (upsert_alike h m).bind fun v d h => ?_
  cases m.kind with
  | gauge => exact upsert_alike h .tick
  | counter => exact .ok h

theorem restore_alike {v : Memory} {d : Database} (h : ofMemory v = d) (m : Metric) :
    Alike Error.rejected (fun v d => ofMemory v = d) (v.replay m) (d.restore m) :=
  (valid_alike m).bind fun _ _ _ => upsert_alike h m

end Database

namespace Store

/-- A store in the same place that holds these values. -/
def holding (s : Store) (v : Memory) : Store :=
  match s with
  | memory _ => memory v
  | database path _ => database path (.ofMemory v)

/-- A value as the store gives it back. -/
def shown (s : Store) : Value → Value
  | .gauge x =>
    match s with
    | memory _ => .gauge x
    | database _ _ => .gauge (Row.columnReal x)
  | .counter n => .counter n

/-- Stores that have never been written to. -/
inductive Fresh : Store → Prop
  | memory : Fresh (.memory .empty)
  | database (path : Option String) {content : Database} (h : Database.blank.migrate = .ok content) :
    Fresh (.database path content)

theorem Fresh.holding_empty {s : Store} (h : s.Fresh) : s.holding .empty = s := by
  cases h with
  | memory => rfl
  | database path h =>
    cases h
    rfl

@[simp] theorem shown_holding (s : Store) (v : Memory) : (s.holding v).shown = s.shown := by
  funext x
  cases s <;> rfl

theorem shown_eq_counter_iff {s : Store} {x : Value} {n : Int64} :
    s.shown x = .counter n ↔ x = .counter n := by
  cases s <;> cases x <;> simp [shown]

theorem kind_shown (s : Store) (x : Value) : (s.shown x).kind = x.kind := by
  cases s <;> cases x <;> rfl

theorem columnReal_columnReal (x : Real64) : Row.columnReal (Row.columnReal x) = Row.columnReal x := by
  unfold Row.columnReal
  split_ifs <;> rfl

theorem shown_shown (s : Store) (x : Value) : s.shown (s.shown x) = s.shown x := by
  rcases x with x | n
  · rcases s with values | ⟨path, content⟩
    · rfl
    · exact congrArg Value.gauge (columnReal_columnReal x)
  · rfl

theorem apply_holding (s : Store) (v : Memory) (w : Write) :
    Alike Error.rejected (fun v t => s.holding v = t) (v.apply w) ((s.holding v).apply w) := by
  cases s with
  | memory values => cases w <;> exact ofMemory_alike _
  | database path content =>
    have lift {x : Except Rejection Memory} {y : Except Error Database}
        (h : Alike Error.rejected (fun v d => Database.ofMemory v = d) x y) :
        Alike Error.rejected (fun v t => holding (database path content) v = t) x
          (y.map (database path)) := by
      cases h with
      | error why => exact .error why
      | ok h => exact .ok (congrArg (database path) h)
    cases w with
    | set m =>
      simp only [Memory.apply, Memory.set_eq_write]
      exact lift (Database.set_alike rfl m)
    | setAll batch =>
      simp only [Memory.apply, Memory.setAll_eq_foldlM]
      exact lift (Alike.foldlM (fun _ _ m h => Database.set_alike h m) batch rfl)
    | restore m =>
      simp only [Memory.apply, Memory.restore_eq_replay]
      exact lift (Database.restore_alike rfl m)

theorem read_ofMetric (name : String) (x : Value) (path : Option String) (content : Database) :
    (Row.ofMetric ⟨name, x⟩).read = .ok (some ((database path content).shown x)) := by
  cases x <;> rfl

theorem metric_holding (s : Store) (v : Memory) (name : String) :
    (s.holding v).metric name =
      match v.find? name with
      | some x => .ok ⟨name, s.shown x⟩
      | none => .error (.notFound name) := by
  cases s with
  | memory values =>
    simp only [holding, metric, Memory.metric?]
    cases v.find? name with
    | none => rfl
    | some x => cases x <;> rfl
  | database path content =>
    simp only [holding, metric, Database.metric, Database.ofMemory]
    rw [Table.find?_ofMemory]
    cases v.find? name with
    | none => rfl
    | some x => cases x <;> rfl

theorem metric_holding_eq_ok_iff {s : Store} {v : Memory} {name : String} {m : Metric} :
    (s.holding v).metric name = .ok m ↔ ∃ x, v.find? name = some x ∧ m = ⟨name, s.shown x⟩ := by
  rw [metric_holding]
  cases v.find? name with
  | none => simp
  | some x => simp [eq_comm]

theorem metrics_holding (s : Store) (v : Memory) :
    (s.holding v).metrics = .ok (v.map fun e => ⟨e.1, s.shown e.2⟩) := by
  cases s with
  | memory values =>
    simp only [holding, metrics, Memory.metrics]
    congr 2
    funext e
    obtain ⟨name, x⟩ := e
    cases x <;> rfl
  | database path content =>
    simp only [holding, metrics, Database.metrics, Database.ofMemory]
    rw [Table.mapM_ofMemory fun name x => by rw [read_ofMetric name x path content]; rfl]
    simp [bind, Except.bind, List.filterMap_map]

end Store
end Telemetry
