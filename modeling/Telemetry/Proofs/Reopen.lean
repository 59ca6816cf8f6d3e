import Telemetry.Storage.Backend
import Telemetry.Proofs.Path
import Telemetry.Proofs.Rows

/-! A new database answers every call as memory does, and goes on to do so when it is closed and
opened again, however often. Opening it again finds the rows that were there and changes nothing:
its folder is made, its schema is up to date. Only zero loses its sign. -/

namespace Telemetry

theorem Real64.units_eq_zero_iff {x : Real64} :
    x.units = 0 ↔ x = .zero ∨ x = .ofMagnitude true 0 := by
  obtain ⟨bits⟩ := x
  have hlt : bits.toNat < 2 ^ 64 := UInt64.toNat_lt bits
  have hzero : Real64.mk bits = .zero ↔ bits.toNat = 0 := by
    rw [Real64.mk.injEq, ← UInt64.toNat_inj]
    rfl
  have hnegative : Real64.mk bits = .ofMagnitude true 0 ↔ bits.toNat = 2 ^ 63 := by
    rw [Real64.mk.injEq, ← UInt64.toNat_inj]
    rfl
  rw [hzero, hnegative]
  unfold units exponentField fractionField
  split_ifs with he
  · constructor
    · intro h
      simp only at he h
      omega
    · rintro (h | h) <;> simp only [h]
  · have hpos : 0 < 2 ^ ((Real64.mk bits).bits.toNat / 2 ^ 52 % 2 ^ 11 - 1) := Nat.two_pow_pos _
    constructor
    · intro h
      rcases Nat.mul_eq_zero.1 h with h | h <;> omega
    · rintro (h | h) <;> simp [h] at he

/-- A value whose zero has no sign. -/
def Value.unsigned : Value → Value
  | gauge x => gauge (if x = .ofMagnitude true 0 then .zero else x)
  | counter n => counter n

theorem Row.columnReal_eq (x : Real64) :
    columnReal x = if x = .ofMagnitude true 0 then .zero else x := by
  unfold columnReal
  by_cases hnegative : x = .ofMagnitude true 0
  · subst hnegative
    decide
  by_cases hzero : x = .zero
  · subst hzero
    decide
  · rw [if_neg hnegative, if_neg]
    rintro ⟨h, -⟩
    rcases Real64.units_eq_zero_iff.1 h with h | h
    · exact hzero h
    · exact hnegative h

theorem Store.shown_database (path : Option String) (content : Database) :
    (Store.database path content).shown = Value.unsigned := by
  funext x
  cases x with
  | gauge x => exact congrArg Value.gauge (Row.columnReal_eq x)
  | counter n => rfl

namespace Storage

inductive Request
  | write (w : Write)
  | metric (name : String)
  | metrics

inductive Reply
  | done
  | metric (m : Metric)
  | metrics (ms : List Metric)
deriving DecidableEq

def Reply.map (f : Value → Value) : Reply → Reply
  | done => done
  | metric m => metric ⟨m.name, f m.value⟩
  | metrics ms => metrics (ms.map fun m => ⟨m.name, f m.value⟩)

/-- What a program does with its database. -/
inductive Visit
  | ask (q : Request)
  | reopen

def requests : List Visit → List Request
  | [] => []
  | .ask q :: visits => q :: requests visits
  | .reopen :: visits => requests visits

end Storage

open Storage (Error Request Reply Visit requests)

namespace Store

/-- What a call leaves of a store, and its answer. -/
def answer (s : Store) : Request → Store × Except Error Reply
  | .write w =>
    match s.apply w with
    | .ok s => (s, .ok .done)
    | .error e => (s, .error e)
  | .metric name => (s, (s.metric name).map .metric)
  | .metrics => (s, s.metrics.map .metrics)

def answers (s : Store) : List Request → List (Except Error Reply)
  | [] => []
  | q :: qs => (s.answer q).2 :: (s.answer q).1.answers qs

/-- Every store answers as memory with the same values does. -/
theorem answer_holding (s : Store) (v : Memory) (q : Request) :
    ∃ v', ((memory v).answer q).1 = memory v' ∧
      (s.holding v).answer q = (s.holding v', ((memory v).answer q).2.map (Reply.map s.shown)) := by
  cases q with
  | write w =>
    have own : Alike Error.rejected (fun v t => memory v = t) (v.apply w) ((memory v).apply w) :=
      apply_holding (memory v) v w
    simp only [answer]
    rcases (apply_holding s v w).outcome with ⟨why, hv, hs⟩ | ⟨v', t, hv, hs, rfl⟩
    · rw [hv] at own
      rcases own.outcome with ⟨_, h, hm⟩ | ⟨_, _, h, -, -⟩
      · cases h
        rw [hs, hm]
        exact ⟨v, rfl, rfl⟩
      · cases h
    · rw [hv] at own
      rcases own.outcome with ⟨_, h, -⟩ | ⟨_, _, h, hm, rfl⟩
      · cases h
      · cases h
        rw [hs, hm]
        exact ⟨v', rfl, rfl⟩
  | metric name =>
    refine ⟨v, rfl, Prod.ext rfl ?_⟩
    have own := metric_holding (memory v) v name
    simp only [holding] at own
    simp only [answer]
    rw [metric_holding, own]
    cases v.find? name with
    | none => rfl
    | some x => cases x <;> rfl
  | metrics =>
    refine ⟨v, rfl, Prod.ext rfl ?_⟩
    have own := metrics_holding (memory v) v
    simp only [holding] at own
    simp only [answer]
    rw [metrics_holding, own]
    simp only [Except.map, Reply.map, List.map_map]
    congr 3
    funext e
    obtain ⟨name, x⟩ := e
    cases x <;> rfl

theorem answers_holding (s : Store) (v : Memory) (qs : List Request) :
    (s.holding v).answers qs = ((memory v).answers qs).map (Except.map (Reply.map s.shown)) := by
  induction qs generalizing v with
  | nil => rfl
  | cons q qs ih =>
    obtain ⟨v', hm, hs⟩ := answer_holding s v q
    simp only [answers, List.map_cons]
    rw [hs, hm, ih v']

end Store

namespace Disk

/-- The answers of the database at a path that is open as `s`. -/
def session (d : Disk) (path : String) (s : Store) :
    List Visit → Except Error (List (Except Error Reply))
  | [] => .ok []
  | .ask q :: visits => do .ok ((s.answer q).2 :: (← d.session path (s.answer q).1 visits))
  | .reopen :: visits => do
    let (d, s) ← (d.keep s).openStore (.databaseFile path)
    d.session path s visits

/-- The database at a path can be opened: its folder is there and no folder is in its place. -/
structure Ready (d : Disk) (path : String) : Prop where
  folder : d.directory.makeFolders? (Path.parent path) = some d.directory
  free : d.directory.isFolder path = false

theorem ready_openFile {d d' : Disk} {path : String} {s : Store}
    (h : d.openFile path = .ok (d', s)) :
    d'.Ready path ∧ ∃ content, s = .database (some path) content := by
  unfold openFile at h
  cases hmade : d.directory.makeFolders? (Path.parent path) with
  | none =>
    rw [hmade] at h
    cases h
  | some made =>
    simp only [hmade] at h
    obtain ⟨opened, hopened, h⟩ := bind_eq_ok_iff.1 h
    obtain rfl := Except.ok.inj hopened
    obtain ⟨found, hfound, h⟩ := bind_eq_ok_iff.1 h
    obtain ⟨content, -, h⟩ := bind_eq_ok_iff.1 h
    obtain ⟨rfl, rfl⟩ := Prod.mk.inj (Except.ok.inj h)
    refine ⟨⟨Directory.makeFolders_again hmade, ?_⟩, content, rfl⟩
    by_contra hfolder
    rw [database, if_pos (Bool.not_eq_false _ ▸ hfolder)] at hfound
    cases hfound

theorem openFile_keep {d : Disk} {path : String} (h : d.Ready path) {content : Database}
    (hversion : content.version = Database.schemaVersion) :
    (d.keep (.database (some path) content)).openFile path =
      .ok (d.keep (.database (some path) content), .database (some path) content) := by
  have found : (d.keep (.database (some path) content)).database path = .ok content := by
    unfold database
    rw [if_neg (by simpa [keep] using h.free)]
    simp only [keep, SortedMap.find?_insert, if_true]
  have current : content.migrate = .ok content := by
    unfold Database.migrate
    rw [hversion]
    rfl
  unfold openFile
  simp only [keep] at found ⊢
  rw [h.folder]
  simp only [withDirectory, bind, Except.bind, found, current, SortedMap.insert_insert]

theorem session_holding {d : Disk} {path : String} (h : d.Ready path) (content : Database)
    (v : Memory) (visits : List Visit) :
    d.session path ((Store.database (some path) content).holding v) visits =
      .ok (((Store.memory v).answers (requests visits)).map
        (Except.map (Reply.map Value.unsigned))) := by
  induction visits generalizing d v with
  | nil => rfl
  | cons visit visits ih =>
    cases visit with
    | ask q =>
      obtain ⟨v', hm, hs⟩ := Store.answer_holding (.database (some path) content) v q
      rw [session, hs, ih h, requests, Store.answers, hm, Store.shown_database]
      rfl
    | reopen =>
      have again := openFile_keep h (rfl : (Database.ofMemory v).version = Database.schemaVersion)
      rw [session, openStore, Store.holding, again]
      have hready : (d.keep (.database (some path) (.ofMemory v))).Ready path := ⟨h.folder, h.free⟩
      exact ih hready v

end Disk

/-- A database that is new, in a file or in none, gives every answer that new memory gives, errors
included, but for the sign of zero; opening the file again never fails. -/
theorem database_answers_as_memory {d₀ d : Disk} {path : String} {s : Store}
    (hopen : d₀.openStore (.databaseFile path) = .ok (d, s)) (hfresh : s.Fresh)
    (visits : List Visit) :
    d.session path s visits = .ok (((Store.memory .empty).answers (requests visits)).map
      (Except.map (Reply.map Value.unsigned))) ∧
    ∃ s', d₀.openStore .databaseInMemory = .ok (d₀, s') ∧
      ∀ qs, s'.answers qs = ((Store.memory .empty).answers qs).map
        (Except.map (Reply.map Value.unsigned)) := by
  constructor
  · rw [Disk.openStore] at hopen
    obtain ⟨hready, content, rfl⟩ := Disk.ready_openFile hopen
    have run := Disk.session_holding hready content .empty visits
    rwa [hfresh.holding_empty] at run
  · have fresh : (Store.database none (.ofMemory .empty)).Fresh := .database none rfl
    refine ⟨_, rfl, fun qs => ?_⟩
    have run := Store.answers_holding (.database none (.ofMemory .empty)) .empty qs
    rwa [fresh.holding_empty, Store.shown_database] at run

/-- A kind is remembered over a reopening, and a negative zero is not. -/
theorem database_remembers_kind :
    ∃ d s, Disk.openStore ⟨⟨[], [""]⟩, []⟩ (.databaseFile "data/metrics.db") = .ok (d, s) ∧ s.Fresh ∧
      d.session "data/metrics.db" s
        [.ask (.write (.set ⟨"load", .gauge (.ofMagnitude true 0)⟩)), .reopen,
          .ask (.write (.restore ⟨"load", .counter 1⟩)), .reopen, .ask .metrics] =
        .ok [.ok .done, .error (.rejected (.kindMismatch "load" .gauge .counter)),
          .ok (.metrics [⟨pollCount, .counter 1⟩, ⟨"load", .gauge .zero⟩])] := by
  have hopen : Disk.openStore ⟨⟨[], [""]⟩, []⟩ (.databaseFile "data/metrics.db") =
      .ok (⟨⟨[], ["", "data"]⟩, [("data/metrics.db", .ofMemory .empty)]⟩,
        .database (some "data/metrics.db") (.ofMemory .empty)) := rfl
  have hfresh : (Store.database (some "data/metrics.db") (.ofMemory .empty)).Fresh := .database _ rfl
  refine ⟨_, _, hopen, hfresh, ?_⟩
  rw [(database_answers_as_memory hopen hfresh _).1]
  decide

end Telemetry
