import Telemetry.Proofs.Batch
import Telemetry.Proofs.BatchText
import Telemetry.Proofs.Conversion
import Telemetry.Proofs.Exchange
import Telemetry.Proofs.Target

/-! Statuses. Whatever fails on the way of a request is either missing, which is 404, or the request's
own fault, which is 400, and of several failures the first one counts: of all records of a list the
first that is no metric, and only then the store. Nothing is the collector's fault: what it has just
written it finds, of the kind it was written with. -/

namespace Telemetry

namespace Memory

variable {v : Memory} {why : Rejection}

theorem merge_ne_emptyName {m : Metric} (h : v.merge m = .error why) : why ≠ .emptyName := by
  unfold merge at h
  split at h
  · rcases bind_eq_error_iff.1 h with h | ⟨_, -, h⟩
    · unfold Value.merge at h
      split at h
      · cases h
      · split at h
        · cases h
        · exact Except.error.inj h ▸ nofun
      · exact Except.error.inj h ▸ nofun
    · cases h
  · cases h

/-- What a store says of a metric with a name is not that it has none. -/
theorem refuses_ne_emptyName {m : Metric} (hm : m.name ≠ "") (h : v.Refuses m why) :
    why ≠ .emptyName := by
  rcases h with h | ⟨-, h⟩ | ⟨-, -, -, h⟩
  · unfold Metric.validate at h
    have hname : m.name.isEmpty = false := by simpa using hm
    simp only [hname, Bool.false_eq_true, if_false] at h
    split at h
    · cases h
    · split_ifs at h <;> obtain rfl := Except.error.inj h <;> exact nofun
  · exact merge_ne_emptyName h
  · exact merge_ne_emptyName h

theorem setAll_ne_emptyName {batch : List Metric} (names : ∀ m ∈ batch, m.name ≠ "")
    (h : v.setAll batch = .error why) : why ≠ .emptyName := by
  rw [setAll_eq_foldlM, foldlM_eq_error_iff] at h
  obtain ⟨before, m, after, w, rfl, -, hm⟩ := h
  rw [← set_eq_write, set_eq_error_iff] at hm
  exact refuses_ne_emptyName (names m (by simp)) hm

end Memory

namespace Collector

/-- How a computation ends for a client: something is missing, or the request is at fault, or else
there is a result. -/
structure Ends {α : Type} (x : Except Error α) (missing faulty : Prop) : Prop where
  missing : (∃ e, x = .error e ∧ e.status = 404) ↔ missing
  faulty : (∃ e, x = .error e ∧ e.status = 400) ↔ faulty
  only : ∀ e, x = .error e → e.status = 404 ∨ e.status = 400

namespace Ends

variable {α β : Type} {x : Except Error α} {M F M' F' : Prop}

theorem ok (a : α) : Ends (.ok a : Except Error α) False False :=
  ⟨by simp, by simp, by simp⟩

theorem congr (h : Ends x M F) (hM : M ↔ M') (hF : F ↔ F') : Ends x M' F' :=
  ⟨h.missing.trans hM, h.faulty.trans hF, h.only⟩

theorem error_iff {e : Error} : Ends (.error e : Except Error α) M F ↔
    (e.status = 404 ↔ M) ∧ (e.status = 400 ↔ F) ∧ (e.status = 404 ∨ e.status = 400) := by
  constructor
  · rintro ⟨hM, hF, honly⟩
    exact ⟨by simpa using hM, by simpa using hF, honly e rfl⟩
  · rintro ⟨hM, hF, honly⟩
    exact ⟨by simpa using hM, by simpa using hF, by simpa using honly⟩

/-- What fails first counts. -/
theorem bind {k : α → Except Error β} {N G : α → Prop} (hx : Ends x M F)
    (hk : ∀ a, x = .ok a → Ends (k a) (N a) (G a)) :
    Ends (x >>= k) (M ∨ ∃ a, x = .ok a ∧ N a) (F ∨ ∃ a, x = .ok a ∧ G a) := by
  match x, hx, hk with
  | .error e, hx, _ =>
    have failed : Ends (.error e : Except Error β) M F := error_iff.2 (error_iff.1 hx)
    exact failed.congr (by simp) (by simp)
  | .ok a, hx, hk =>
    have next := hk a rfl
    have hM : ¬M := by simp [← hx.missing]
    have hF : ¬F := by simp [← hx.faulty]
    exact next.congr (by simp [hM]) (by simp [hF])

theorem bind_of_ok {k : α → Except Error β} (hx : Ends x M F)
    (hk : ∀ a, x = .ok a → ∃ b, k a = .ok b) : Ends (x >>= k) M F := by
  have rest : ∀ a, x = .ok a → Ends (k a) False False := by
    intro a ha
    obtain ⟨b, hb⟩ := hk a ha
    rw [hb]
    exact .ok b
  exact (hx.bind rest).congr (by simp) (by simp)

theorem status {h : Handled} (ends : Ends h.2 M F)
    (success : ∀ response, h.2 = .ok response → response.status = 200) :
    (h.response.2.status = 404 ↔ M) ∧ (h.response.2.status = 400 ↔ F) ∧
      (h.response.2.status = 200 ↔ ¬M ∧ ¬F) := by
  obtain ⟨r, outcome⟩ := h
  rw [← ends.missing, ← ends.faulty]
  match outcome, ends.only, success with
  | .ok response, _, success =>
    have hstatus : (Handled.response (r, .ok response)).2.status = 200 := success response rfl
    simp [hstatus]
  | .error e, only, _ =>
    have hstatus : (Handled.response (r, .error e)).2.status = e.status := rfl
    rcases only e rfl with he | he <;> simp [hstatus, he]

theorem status_lt {h : Handled} (ends : Ends h.2 M F)
    (success : ∀ response, h.2 = .ok response → response.status = 200) :
    h.response.2.status < 500 := by
  obtain ⟨hmissing, hfaulty, hsuccess⟩ := ends.status success
  by_cases hM : M
  · rw [hmissing.2 hM]
    decide
  · by_cases hF : F
    · rw [hfaulty.2 hF]
      decide
    · rw [hsuccess.2 ⟨hM, hF⟩]
      decide

end Ends

theorem Error.status_invalid (why : Rejection) :
    (Error.invalid why).status = if why = .emptyName then 404 else 400 := by
  rcases why <;> rfl

theorem ends_valid {α : Type} (x : Except Rejection α) :
    Ends (valid x) (x = .error .emptyName) (∃ why, x = .error why ∧ why ≠ .emptyName) := by
  match x with
  | .ok a => exact (Ends.ok a).congr (by simp) (by simp)
  | .error why =>
    by_cases hwhy : why = .emptyName
    · exact Ends.error_iff.2 (by simp [Error.status_invalid, hwhy])
    · exact Ends.error_iff.2 (by simp [Error.status_invalid, hwhy])

/-- A text that names no kind is no question for a metric that is missing. -/
theorem ends_parse (text : String) : Ends (valid (Kind.parse text)) False (¬Kind.Names text) := by
  unfold Kind.Names
  match hparse : Kind.parse text with
  | .ok k => exact (Ends.ok k).congr Iff.rfl (by simp)
  | .error why =>
    obtain rfl := Kind.parse_eq_error hparse
    exact Ends.error_iff.2 (by simp [Error.status_invalid])

theorem ends_readPath (kind name value : String) :
    Ends (readPath kind name value) (Kind.Names kind ∧ name = "")
      (¬Kind.Names kind ∨ name ≠ "" ∧ ∃ k, Kind.parse kind = .ok k ∧
        ∃ why, Value.parse k value = .error why) := by
  have hvalue : ∀ k, valid (Kind.parse kind) = .ok k →
      Ends (if name.isEmpty then .error (.invalid .emptyName) else
        valid (Value.parse k value) >>= fun x => .ok (Metric.mk name x)) (name = "")
          (name ≠ "" ∧ ∃ why, Value.parse k value = .error why) := by
    intro k _
    by_cases hname : name = ""
    · simp only [hname]
      exact Ends.error_iff.2 (by simp [Error.status_invalid])
    · have hnonempty : name.isEmpty = false := by simpa using hname
      simp only [hnonempty, Bool.false_eq_true, if_false]
      refine ((ends_valid (Value.parse k value)).bind_of_ok fun x _ => ⟨_, rfl⟩).congr ?_ ?_
      · simp only [hname, iff_false]
        intro h
        exact absurd (Value.parse_eq_error h) nofun
      · constructor
        · rintro ⟨why, hwhy, -⟩
          exact ⟨hname, why, hwhy⟩
        · rintro ⟨-, why, hwhy⟩
          exact ⟨why, hwhy, Value.parse_eq_error hwhy ▸ nofun⟩
  refine ((ends_parse kind).bind hvalue).congr ?_ ?_
  · simp [valid_eq_ok_iff, Kind.Names]
  · simp only [valid_eq_ok_iff]
    grind

theorem ends_readRecord (plain : ByteArray) :
    Ends (readRecord plain) False (Record.parse? (Bytes.toList plain) = none) := by
  unfold readRecord
  split
  · next record hrecord => exact (Ends.ok record).congr Iff.rfl (by simp [hrecord])
  · next hnone => exact Ends.error_iff.2 (by simp [hnone, Error.status])

theorem readRecord_eq_ok_iff {plain : ByteArray} {record : Record} :
    readRecord plain = .ok record ↔ Record.parse? (Bytes.toList plain) = some record := by
  unfold readRecord
  split <;> simp [*]

theorem ends_readMetric (plain : ByteArray) :
    Ends (readMetric plain)
      (∃ record, Record.parse? (Bytes.toList plain) = some record ∧ record.Nameless)
      (Record.parse? (Bytes.toList plain) = none ∨
        ∃ record, Record.parse? (Bytes.toList plain) = some record ∧ record.Faulty) := by
  refine ((ends_readRecord plain).bind fun record _ => ends_valid record.toMetric).congr ?_ ?_
  · simp only [readRecord_eq_ok_iff, Record.toMetric_eq_emptyName_iff, false_or]
  · simp only [readRecord_eq_ok_iff, Record.toMetric_eq_other_iff]

theorem ends_readQuery (plain : ByteArray) :
    Ends (readQuery plain)
      (∃ record, Record.parse? (Bytes.toList plain) = some record ∧ record.Nameless)
      (Record.parse? (Bytes.toList plain) = none ∨
        ∃ record, Record.parse? (Bytes.toList plain) = some record ∧ ¬Kind.Names record.type) := by
  refine ((ends_readRecord plain).bind fun record _ => ends_valid record.key).congr ?_ ?_
  · simp only [readRecord_eq_ok_iff, Record.key_eq_emptyName_iff, false_or]
  · simp only [readRecord_eq_ok_iff, Record.key_eq_other_iff]

theorem readQuery_eq_ok_iff {plain : ByteArray} {k : Kind} {name : String} :
    readQuery plain = .ok (k, name) ↔ ∃ record, Record.parse? (Bytes.toList plain) = some record ∧
      Kind.parse record.type = .ok k ∧ record.id ≠ "" ∧ name = record.id := by
  simp only [readQuery, bind_eq_ok_iff, readRecord_eq_ok_iff, valid_eq_ok_iff, Record.key_eq_ok_iff]

theorem ends_readBatch (plain : ByteArray) :
    Ends (readBatch plain)
      (∃ records, Batch.records? (Bytes.toList plain) = some records ∧
        Batch.FirstFails Record.Nameless records)
      (Batch.records? (Bytes.toList plain) = none ∨
        ∃ records, Batch.records? (Bytes.toList plain) = some records ∧
          Batch.FirstFails Record.Faulty records) := by
  have hread : readBatch plain = (Batch.records? (Bytes.toList plain)).elim (.error .malformed)
      fun records => valid (records.mapM Record.toMetric) := by
    unfold readBatch Batch.decode
    rcases Batch.records? (Bytes.toList plain) with _ | records
    · rfl
    · simp only [Option.elim_some]
      generalize records.mapM Record.toMetric = read
      rcases read with why | ms <;> rfl
  rw [hread]
  rcases Batch.records? (Bytes.toList plain) with _ | records
  · exact Ends.error_iff.2 (by simp [Error.status])
  · refine (ends_valid (records.mapM Record.toMetric)).congr ?_ ?_
    · simp [Batch.mapM_toMetric_eq_emptyName_iff]
    · simp [Batch.mapM_toMetric_eq_other_iff]

/-- A repository that has nothing under a name, or a metric of another kind. -/
def Lacks (r : Repository) (name : String) (k : Kind) : Prop :=
  (∀ m, r.store.metric name ≠ .ok m) ∨ ∃ m, r.store.metric name = .ok m ∧ m.kind ≠ k

section

variable (s : Store) (v : Memory) (watcher : Option Channel)

theorem ends_stored (name : String) (k : Kind) :
    Ends (stored ⟨s.holding v, watcher⟩ name k) (Lacks ⟨s.holding v, watcher⟩ name k) False := by
  unfold stored Lacks
  rw [Store.metric_holding]
  rcases v.find? name with _ | x
  · exact Ends.error_iff.2 (by simp [Error.ofRead, Storage.Error.isNotFound, Error.status])
  · by_cases hk : (Metric.mk name (s.shown x)).kind = k
    · simp only [if_pos hk]
      exact (Ends.ok _).congr (by simp [hk]) Iff.rfl
    · simp only [if_neg hk]
      exact Ends.error_iff.2 (by simp [Error.status, hk])

theorem ends_setAll {batch : List Metric} (names : ∀ m ∈ batch, m.name ≠ "") :
    Ends (accepted (Repository.setAll ⟨s.holding v, watcher⟩ batch)) False
      (∃ why, Repository.setAll ⟨s.holding v, watcher⟩ batch = .error why) := by
  have whole : Repository.setAll ⟨s.holding v, watcher⟩ batch = _ :=
    Repository.apply_eq_map ⟨s.holding v, watcher⟩ (.setAll batch)
  rcases (Store.apply_holding s v (.setAll batch)).outcome with ⟨why, hv, hs⟩ | ⟨v', t, -, hs, -⟩
  · have hwhy := Memory.setAll_ne_emptyName names hv
    rw [whole, hs]
    exact Ends.error_iff.2 (by simp [Except.map, Error.ofWrite, Error.status_invalid, hwhy])
  · rw [whole, hs]
    exact (Ends.ok _).congr Iff.rfl (by simp [Except.map])

theorem ends_set {m : Metric} (name : m.name ≠ "") :
    Ends (accepted (Repository.set ⟨s.holding v, watcher⟩ m)) False
      (∃ why, Repository.set ⟨s.holding v, watcher⟩ m = .error why) := by
  have same : Repository.set ⟨s.holding v, watcher⟩ m = Repository.setAll ⟨s.holding v, watcher⟩ [m] :=
    Repository.set_eq_setAll _ m
  rw [same]
  exact ends_setAll s v watcher (by simpa using name)

end

namespace Endpoint

/-- The parts of a path that the client chooses. -/
def parts : Endpoint → List (List Char)
  | writePath kind name value => [kind, name, value]
  | readPath kind name => [kind, name]
  | _ => []

/-- What a request asks for is not there, or has no name. -/
def Missing (r : Repository) (plain : ByteArray) : Endpoint → Prop
  | index | ping => False
  | write => ∃ record, Record.parse? (Bytes.toList plain) = some record ∧ record.Nameless
  | writeBatch => ∃ records, Batch.records? (Bytes.toList plain) = some records ∧
      Batch.FirstFails Record.Nameless records
  | read => ∃ record k, Record.parse? (Bytes.toList plain) = some record ∧
      Kind.parse record.type = .ok k ∧ (record.id = "" ∨ Lacks r record.id k)
  | readPath kind name => ∃ kindText nameText k, Http.segmentText? kind = some kindText ∧
      Http.segmentText? name = some nameText ∧ Kind.parse kindText = .ok k ∧ Lacks r nameText k
  | writePath kind name _ => name = [] ∧
      ∃ kindText, Http.segmentText? kind = some kindText ∧ Kind.Names kindText

/-- A request that cannot be understood, or that the store refuses. -/
def Faulty (r : Repository) (plain : ByteArray) : Endpoint → Prop
  | index | ping => False
  | write => Record.parse? (Bytes.toList plain) = none ∨
      ∃ record, Record.parse? (Bytes.toList plain) = some record ∧
        (record.Faulty ∨ ∃ m, record.toMetric = .ok m ∧ ∃ why, r.set m = .error why)
  | writeBatch => Batch.records? (Bytes.toList plain) = none ∨
      ∃ records, Batch.records? (Bytes.toList plain) = some records ∧
        (Batch.FirstFails Record.Faulty records ∨
          ∃ ms, records.mapM Record.toMetric = .ok ms ∧ ∃ why, r.setAll ms = .error why)
  | read => Record.parse? (Bytes.toList plain) = none ∨
      ∃ record, Record.parse? (Bytes.toList plain) = some record ∧ ¬Kind.Names record.type
  | readPath kind _ => ∃ kindText, Http.segmentText? kind = some kindText ∧ ¬Kind.Names kindText
  | writePath kind name value => ∃ kindText nameText valueText,
      Http.segmentText? kind = some kindText ∧ Http.segmentText? name = some nameText ∧
        Http.segmentText? value = some valueText ∧
        (¬Kind.Names kindText ∨ name ≠ [] ∧ ∃ k, Kind.parse kindText = .ok k ∧
          ((∃ why, Value.parse k valueText = .error why) ∨
            ∃ x, Value.parse k valueText = .ok x ∧ ∃ why, r.set ⟨nameText, x⟩ = .error why))

/-- Every handler is a computation that fails, or gives a response. -/
theorem writing_snd (r : Repository) (w : Except Error (Repository × Except Error Http.Response)) :
    (writing r w).2 = w >>= Prod.snd := by
  rcases w with e | done <;> rfl

theorem limited_of_le {plain : ByteArray} (h : plain.size ≤ maxHandledBody) :
    limited plain = .ok plain := limited_eq_ok_iff.2 ⟨h, rfl⟩

section

variable (r : Repository) {plain : ByteArray} {kind name value : List Char}
  {kindText nameText valueText : String}

theorem handleWrite_eq (hsize : plain.size ≤ maxHandledBody) : handleWrite r plain =
    writing r (readMetric plain >>= fun m => accepted (r.set m) >>= fun r =>
      .ok (r, (stored r m.name m.kind).map recordResponse)) := by
  rw [handleWrite, limited_of_le hsize]
  rfl

theorem handleWriteBatch_eq (hsize : plain.size ≤ maxHandledBody) : handleWriteBatch r plain =
    writing r (readBatch plain >>= fun ms => accepted (r.setAll ms) >>= fun r =>
      .ok (r, .ok (.of 200 .json (Bytes.ofList
        (Json.writeText (toString ms.length ++ " metrics received")))))) := by
  rw [handleWriteBatch, limited_of_le hsize]
  rfl

theorem handleWritePath_eq (hkind : Http.segmentText? kind = some kindText)
    (hname : Http.segmentText? name = some nameText)
    (hvalue : Http.segmentText? value = some valueText) : handleWritePath r kind name value =
      writing r (Collector.readPath kindText nameText valueText >>= fun m =>
        accepted (r.set m) >>= fun r => .ok (r, .ok (.plain 200
          ("updated " ++ m.kind.name ++ " " ++ m.name ++ " = " ++ m.value.text ++ "\n")))) := by
  rw [handleWritePath, segment_eq_ok_iff.2 hkind, segment_eq_ok_iff.2 hname,
    segment_eq_ok_iff.2 hvalue]
  rfl

theorem handleRead_eq (hsize : plain.size ≤ maxHandledBody) : handleRead r plain =
    reading r (readQuery plain >>= fun query => stored r query.2 query.1 >>= fun m =>
      .ok (recordResponse m)) := by
  rw [handleRead, limited_of_le hsize]
  rfl

theorem handleReadPath_eq (hkind : Http.segmentText? kind = some kindText)
    (hname : Http.segmentText? name = some nameText) : handleReadPath r kind name =
      reading r (valid (Kind.parse kindText) >>= fun k => stored r nameText k >>= fun m =>
        .ok (.plain 200 m.value.text)) := by
  rw [handleReadPath, segment_eq_ok_iff.2 hkind, segment_eq_ok_iff.2 hname]
  rfl

end

section

variable (s : Store) (v : Memory) (watcher : Option Channel) {plain : ByteArray}

theorem ends_write (hsize : plain.size ≤ maxHandledBody) :
    Ends (handleWrite ⟨s.holding v, watcher⟩ plain).2 (Missing ⟨s.holding v, watcher⟩ plain .write)
      (Faulty ⟨s.holding v, watcher⟩ plain .write) := by
  set r : Repository := ⟨s.holding v, watcher⟩
  have whole : (handleWrite r plain).2 = readMetric plain >>= fun m => accepted (r.set m) >>=
      fun r => (stored r m.name m.kind).map recordResponse := by
    rw [handleWrite_eq r hsize, writing_snd]
    simp only [bind_assoc]
    rfl
  have hset : ∀ m, readMetric plain = .ok m → Ends (accepted (r.set m) >>=
      fun r => (stored r m.name m.kind).map recordResponse) False (∃ why, r.set m = .error why) := by
    intro m hm
    obtain ⟨record, -, hrecord⟩ := readMetric_eq_ok_iff.1 hm
    obtain ⟨k, x, -, hid, -, rfl⟩ := Record.toMetric_eq_ok_iff.1 hrecord
    refine (ends_set s v watcher hid).bind_of_ok fun r' hr' => ?_
    obtain ⟨found, hfound⟩ := stored_of_set (accepted_eq_ok_iff.1 hr')
    exact ⟨recordResponse found, by rw [hfound]; rfl⟩
  rw [whole]
  refine ((ends_readMetric plain).bind hset).congr ?_ ?_
  · simp [Missing]
  · simp only [readMetric_eq_ok_iff, Faulty]
    grind

theorem ends_writeBatch (hsize : plain.size ≤ maxHandledBody) :
    Ends (handleWriteBatch ⟨s.holding v, watcher⟩ plain).2
      (Missing ⟨s.holding v, watcher⟩ plain .writeBatch)
      (Faulty ⟨s.holding v, watcher⟩ plain .writeBatch) := by
  set r : Repository := ⟨s.holding v, watcher⟩
  have whole : (handleWriteBatch r plain).2 = readBatch plain >>= fun ms => accepted (r.setAll ms) >>=
      fun _ => .ok (.of 200 .json (Bytes.ofList
        (Json.writeText (toString ms.length ++ " metrics received")))) := by
    rw [handleWriteBatch_eq r hsize, writing_snd]
    simp only [bind_assoc]
    rfl
  have hset : ∀ ms, readBatch plain = .ok ms → Ends (accepted (r.setAll ms) >>=
      fun _ => .ok (Http.Response.of 200 .json (Bytes.ofList
        (Json.writeText (toString ms.length ++ " metrics received"))))) False
          (∃ why, r.setAll ms = .error why) := by
    intro ms hms
    have names : ∀ m ∈ ms, m.name ≠ "" := by
      intro m hm
      exact (Batch.legible_of_decode (readBatch_eq_ok_iff.1 hms) m hm).1
    exact (ends_setAll s v watcher names).bind_of_ok fun _ _ => ⟨_, rfl⟩
  have hread : ∀ ms, readBatch plain = .ok ms ↔ ∃ records,
      Batch.records? (Bytes.toList plain) = some records ∧ records.mapM Record.toMetric = .ok ms := by
    intro ms
    rw [readBatch_eq_ok_iff, Batch.decode]
    split
    · next hnone => simp [hnone]
    · next records hrecords => split <;> simp [*]
  rw [whole]
  refine ((ends_readBatch plain).bind hset).congr ?_ ?_
  · simp [Missing]
  · simp only [hread, Faulty]
    grind

theorem ends_read (hsize : plain.size ≤ maxHandledBody) :
    Ends (handleRead ⟨s.holding v, watcher⟩ plain).2 (Missing ⟨s.holding v, watcher⟩ plain .read)
      (Faulty ⟨s.holding v, watcher⟩ plain .read) := by
  set r : Repository := ⟨s.holding v, watcher⟩
  have hstored : ∀ query, readQuery plain = .ok query → Ends (stored r query.2 query.1 >>=
      fun m => .ok (recordResponse m)) (Lacks r query.2 query.1) False := by
    intro query _
    exact (ends_stored s v watcher query.2 query.1).bind_of_ok fun m _ => ⟨_, rfl⟩
  rw [handleRead_eq r hsize, reading]
  refine ((ends_readQuery plain).bind hstored).congr ?_ ?_
  · simp only [Missing, Prod.exists, readQuery_eq_ok_iff, Record.Nameless, Kind.Names]
    grind
  · simp [Faulty]

theorem ends_valueAt {kind name : List Char} {kindText nameText : String}
    (hkind : Http.segmentText? kind = some kindText)
    (hname : Http.segmentText? name = some nameText) :
    Ends (handleReadPath ⟨s.holding v, watcher⟩ kind name).2
      (Missing ⟨s.holding v, watcher⟩ plain (.readPath kind name))
      (Faulty ⟨s.holding v, watcher⟩ plain (.readPath kind name)) := by
  set r : Repository := ⟨s.holding v, watcher⟩
  have hstored : ∀ k, valid (Kind.parse kindText) = .ok k → Ends (stored r nameText k >>=
      fun m => .ok (Http.Response.plain 200 m.value.text)) (Lacks r nameText k) False := by
    intro k _
    exact (ends_stored s v watcher nameText k).bind_of_ok fun m _ => ⟨_, rfl⟩
  rw [handleReadPath_eq r hkind hname, reading]
  refine ((ends_parse kindText).bind hstored).congr ?_ ?_
  · simp [Missing, valid_eq_ok_iff, hkind, hname]
  · simp [Faulty, hkind]

theorem ends_updateAt {kind name value : List Char} {kindText nameText valueText : String}
    (hkind : Http.segmentText? kind = some kindText)
    (hname : Http.segmentText? name = some nameText)
    (hvalue : Http.segmentText? value = some valueText) :
    Ends (handleWritePath ⟨s.holding v, watcher⟩ kind name value).2
      (Missing ⟨s.holding v, watcher⟩ plain (.writePath kind name value))
      (Faulty ⟨s.holding v, watcher⟩ plain (.writePath kind name value)) := by
  set r : Repository := ⟨s.holding v, watcher⟩
  have whole : (handleWritePath r kind name value).2 =
      Collector.readPath kindText nameText valueText >>= fun m => accepted (r.set m) >>= fun _ =>
        .ok (.plain 200
          ("updated " ++ m.kind.name ++ " " ++ m.name ++ " = " ++ m.value.text ++ "\n")) := by
    rw [handleWritePath_eq r hkind hname hvalue, writing_snd]
    simp only [bind_assoc]
    rfl
  have hset : ∀ m, Collector.readPath kindText nameText valueText = .ok m →
      Ends (accepted (r.set m) >>= fun _ => .ok (Http.Response.plain 200
        ("updated " ++ m.kind.name ++ " " ++ m.name ++ " = " ++ m.value.text ++ "\n"))) False
          (∃ why, r.set m = .error why) := by
    intro m hm
    obtain ⟨k, x, -, hne, -, rfl⟩ := readPath_eq_ok_iff.1 hm
    exact (ends_set s v watcher hne).bind_of_ok fun _ _ => ⟨_, rfl⟩
  have hempty : nameText = "" ↔ name = [] := by
    rw [← Http.segmentText?_empty_iff, hname, Option.some.injEq]
  rw [whole]
  refine ((ends_readPath kindText nameText valueText).bind hset).congr ?_ ?_
  · simp [Missing, hkind, hempty, and_comm]
  · simp only [Faulty, hkind, hname, hvalue, readPath_eq_ok_iff, Option.some.injEq, ne_eq, hempty]
    grind

theorem ends_handle {e : Endpoint} (hsize : plain.size ≤ maxHandledBody)
    (hparts : ∀ part ∈ e.parts, ∃ text, Http.segmentText? part = some text) :
    Ends (e.handle ⟨s.holding v, watcher⟩ plain).2 (Missing ⟨s.holding v, watcher⟩ plain e)
      (Faulty ⟨s.holding v, watcher⟩ plain e) := by
  match e, hparts with
  | index, _ =>
    rw [handle, handleIndex, Store.metrics_holding]
    exact .ok _
  | ping, _ =>
    have hping : (s.holding v).ping = .ok () := by rcases s <;> rfl
    rw [handle, handlePing, hping]
    exact .ok _
  | write, _ => exact ends_write s v watcher hsize
  | writeBatch, _ => exact ends_writeBatch s v watcher hsize
  | read, _ => exact ends_read s v watcher hsize
  | readPath kind name, hparts =>
    obtain ⟨kindText, hkind⟩ := hparts kind (by simp [parts])
    obtain ⟨nameText, hname⟩ := hparts name (by simp [parts])
    exact ends_valueAt s v watcher hkind hname
  | writePath kind name value, hparts =>
    obtain ⟨kindText, hkind⟩ := hparts kind (by simp [parts])
    obtain ⟨nameText, hname⟩ := hparts name (by simp [parts])
    obtain ⟨valueText, hvalue⟩ := hparts value (by simp [parts])
    exact ends_updateAt s v watcher hkind hname hvalue

end

theorem status_of_handle_ok {e : Endpoint} {r : Repository} {plain : ByteArray}
    {response : Http.Response} (h : (e.handle r plain).2 = .ok response) : response.status = 200 := by
  by_cases he : e.isWrite
  · obtain ⟨w, -, -, hreply⟩ := (handle_eq_ok_iff he).1 (Prod.ext rfl h)
    exact hreply.status
  · match e, he, h with
    | index, _, h =>
      simp only [handle, handleIndex, reading] at h
      split at h
      · exact Except.ok.inj h ▸ rfl
      · cases h
    | ping, _, h =>
      simp only [handle, handlePing, reading] at h
      split at h
      · exact Except.ok.inj h ▸ rfl
      · cases h
    | read, _, h =>
      simp only [handle, handleRead, reading, bind_eq_ok_iff, Except.ok.injEq] at h
      obtain ⟨_, -, _, -, _, -, rfl⟩ := h
      rfl
    | readPath kind name, _, h =>
      simp only [handle, handleReadPath, reading, bind_eq_ok_iff, Except.ok.injEq] at h
      obtain ⟨_, -, _, -, _, -, _, -, rfl⟩ := h
      rfl

variable (s : Store) (v : Memory) (watcher : Option Channel)

theorem status_handle_lt (e : Endpoint) (plain : ByteArray) :
    (e.handle ⟨s.holding v, watcher⟩ plain).response.2.status < 500 := by
  have readable : ∀ (e : Endpoint) (plain : ByteArray), plain.size ≤ maxHandledBody →
      (∀ part ∈ e.parts, ∃ text, Http.segmentText? part = some text) →
      (e.handle ⟨s.holding v, watcher⟩ plain).response.2.status < 500 := by
    intro e plain hsize hparts
    exact (ends_handle s v watcher hsize hparts).status_lt fun _ => status_of_handle_ok
  have long : ¬plain.size ≤ maxHandledBody → limited plain = .error .tooLong :=
    fun hlong => if_pos (Nat.not_le.1 hlong)
  have text : ∀ part, (∃ text, Http.segmentText? part = some text) ∨ segment part = .error .badPath := by
    intro part
    rcases hpart : Http.segmentText? part with _ | text
    · exact Or.inr (by rw [segment, hpart])
    · exact Or.inl ⟨text, rfl⟩
  have failed : ∀ why, (e.handle ⟨s.holding v, watcher⟩ plain).2 = .error why → why.status < 500 →
      (e.handle ⟨s.holding v, watcher⟩ plain).response.2.status < 500 := by
    intro why hwhy hstatus
    have handled : e.handle ⟨s.holding v, watcher⟩ plain = (_, .error why) := Prod.ext rfl hwhy
    rw [handled]
    exact hstatus
  match e with
  | index => exact readable .index ByteArray.empty (by decide) (by simp [parts])
  | ping => exact readable .ping ByteArray.empty (by decide) (by simp [parts])
  | write =>
    by_cases hsize : plain.size ≤ maxHandledBody
    · exact readable _ plain hsize (by simp [parts])
    · refine failed .tooLong ?_ (by decide)
      rw [handle, handleWrite, long hsize]
      rfl
  | writeBatch =>
    by_cases hsize : plain.size ≤ maxHandledBody
    · exact readable _ plain hsize (by simp [parts])
    · refine failed .tooLong ?_ (by decide)
      rw [handle, handleWriteBatch, long hsize]
      rfl
  | read =>
    by_cases hsize : plain.size ≤ maxHandledBody
    · exact readable _ plain hsize (by simp [parts])
    · refine failed .tooLong ?_ (by decide)
      rw [handle, handleRead, long hsize]
      rfl
  | readPath kind name =>
    rcases text kind with ⟨kindText, hkind⟩ | hkind
    · rcases text name with ⟨nameText, hname⟩ | hname
      · exact readable (.readPath kind name) ByteArray.empty (by decide) (by simp [parts, *])
      · refine failed .badPath ?_ (by decide)
        rw [handle, handleReadPath, segment_eq_ok_iff.2 hkind, hname]
        rfl
    · refine failed .badPath ?_ (by decide)
      rw [handle, handleReadPath, hkind]
      rfl
  | writePath kind name value =>
    rcases text kind with ⟨kindText, hkind⟩ | hkind
    · rcases text name with ⟨nameText, hname⟩ | hname
      · rcases text value with ⟨valueText, hvalue⟩ | hvalue
        · exact readable (.writePath kind name value) ByteArray.empty (by decide) (by simp [parts, *])
        · refine failed .badPath ?_ (by decide)
          rw [handle, handleWritePath, segment_eq_ok_iff.2 hkind, segment_eq_ok_iff.2 hname, hvalue]
          rfl
      · refine failed .badPath ?_ (by decide)
        rw [handle, handleWritePath, segment_eq_ok_iff.2 hkind, hname]
        rfl
    · refine failed .badPath ?_ (by decide)
      rw [handle, handleWritePath, hkind]
      rfl

end Endpoint

theorem status_respond_lt (c : Frame.Receiver) (s : Store) (v : Memory) (watcher : Option Channel)
    (q : Http.Request) : (respond c ⟨s.holding v, watcher⟩ q).2.status < 500 := by
  match hplain : unframe c q with
  | .error why =>
    have hstatus : why.status = 400 := by
      unfold unframe at hplain
      split at hplain
      · exact Except.error.inj hplain ▸ rfl
      · split at hplain
        · cases hplain
        · exact Except.error.inj hplain ▸ rfl
    rw [respond_unopened hplain]
    show why.status < 500
    omega
  | .ok plain =>
    rw [respond_opened hplain, status_onItsWay, answer]
    split
    · show 404 < 500
      decide
    · split_ifs
      · exact Endpoint.status_handle_lt s v watcher _ plain
      · show 405 < 500
        decide

/-- The status of every answer. No request is answered as a fault of the collector. One that is
opened, whose path is text and whose body is not too long for a handler is answered 404 just if what
it asks for is missing, 400 just if it is at fault itself or refused by the store, and 200 otherwise;
of several failures in a list of records the first one counts, and the store is asked last. -/
theorem statuses_are_exact {s : Store} (h : s.Fresh) (events : List Store.Event)
    (watcher : Option Channel) (c : Frame.Receiver) (q : Http.Request) :
    let r : Repository := ⟨s.reach events, watcher⟩
    let status := (respond c r q).2.status
    status < 500 ∧
    ∀ plain e, unframe c q = .ok plain → plain.size ≤ maxHandledBody →
      Endpoint.ofTarget? q.target = some e → q.method ∈ e.methods →
      (∀ part ∈ e.parts, ∃ text, Http.segmentText? part = some text) →
      (status = 404 ↔ e.Missing r plain) ∧ (status = 400 ↔ e.Faulty r plain) ∧
        (status = 200 ↔ ¬e.Missing r plain ∧ ¬e.Faulty r plain) := by
  obtain ⟨v, hreach, -⟩ := h.exists_holding events
  rw [hreach]
  intro r status
  refine ⟨status_respond_lt c s v watcher q, ?_⟩
  intro plain e hplain hsize he hmethod hparts
  have hstatus : status = (e.handle r plain).response.2.status := by
    simp only [status, respond_eq hplain he hmethod, status_onItsWay]
  rw [hstatus]
  exact (Endpoint.ends_handle s v watcher hsize hparts).status fun _ => Endpoint.status_of_handle_ok

/-- The second of three records has no name, and the third no kind; a counter is no gauge. -/
theorem first_faulty_record_counts :
    let r : Repository :=
      ⟨(Store.memory .empty).reach [.call (.set ⟨"hits", .counter 2⟩)], none⟩
    let posted : Http.Request := ⟨"POST", "/updates", [],
      "[[\"a\",\"counter\",null,1],[\"\",\" Gauge\"],[\"b\",\"pulse\",2]]".toUTF8⟩
    let asked : Http.Request := ⟨"GET", "/value/gauge/hits", [], ByteArray.empty⟩
    (respond ⟨none, none⟩ r posted).2.status = 404 ∧ (respond ⟨none, none⟩ r asked).2.status = 404 := by
  intro r posted asked
  constructor
  · obtain ⟨-, told⟩ := statuses_are_exact .memory [.call (.set ⟨"hits", .counter 2⟩)] none
      ⟨none, none⟩ posted
    obtain ⟨missing, -, -⟩ := told posted.body .writeBatch rfl (by decide) (by decide) (by decide)
      (by simp [Endpoint.parts])
    refine missing.2 ⟨[⟨"a", "counter", none, some 1⟩, ⟨"", " Gauge", none, none⟩,
      ⟨"b", "pulse", some (.ofNat 2), none⟩], by decide +kernel, ?_⟩
    refine ⟨[_], _, [_], rfl, ?_, ⟨.gauge, by decide⟩, rfl⟩
    simpa using ⟨.counter, .counter 1, by decide, by decide, rfl⟩
  · obtain ⟨-, told⟩ := statuses_are_exact .memory [.call (.set ⟨"hits", .counter 2⟩)] none
      ⟨none, none⟩ asked
    have hparts : ∀ part ∈ ["gauge".toList, "hits".toList],
        ∃ text, Http.segmentText? part = some text := by
      intro part hpart
      simp only [List.mem_cons, List.not_mem_nil, or_false] at hpart
      rcases hpart with rfl | rfl
      · exact ⟨"gauge", by decide⟩
      · exact ⟨"hits", by decide⟩
    obtain ⟨missing, -, -⟩ := told asked.body (.readPath "gauge".toList "hits".toList) rfl (by decide)
      (by decide) (by decide) hparts
    refine missing.2 ⟨"gauge", "hits", .gauge, by decide, by decide, by decide, Or.inr ?_⟩
    exact ⟨⟨"hits", .counter 2⟩, rfl, by decide⟩

end Collector
end Telemetry
