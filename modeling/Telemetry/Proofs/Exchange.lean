import Telemetry.Collector.Exchange
import Telemetry.Proofs.Validity

/-! What a request does to the repository. A handler either fails, and leaves the repository as it
was, or does the one write that the request asks for; the answer to a write is 200 exactly then,
since the metric that was just written can be read. What happens to a response on its way out
touches neither its status nor the repository. -/

namespace Telemetry

theorem Memory.find?_write {v v' : Memory} {m : Metric} (h : v.write m = .ok v') :
    ∃ x, v'.find? m.name = some x ∧ x.kind = m.kind := by
  obtain ⟨_, -, h⟩ := bind_eq_ok_iff.1 h
  obtain ⟨w, hmerge, h⟩ := bind_eq_ok_iff.1 h
  obtain ⟨x, rfl, hx⟩ := merge_eq_ok_iff.1 hmerge
  have kind : x.kind = m.kind := by
    rcases hx with ⟨-, rfl⟩ | ⟨stored, -, hs⟩
    · rfl
    · rcases Value.merge_eq_ok_iff.1 hs with ⟨_, _, _, hm, rfl⟩ | ⟨_, _, _, _, hm, rfl, -⟩
      · simp [Metric.kind, hm, Value.kind]
      · simp [Metric.kind, hm, Value.kind]
  have merged : (v.insert m.name x).find? m.name = some x := by
    rw [SortedMap.find?_insert, if_pos rfl]
  cases hk : m.kind with
  | gauge =>
    rw [hk] at h
    obtain ⟨y, hy, hyk⟩ := merge_grows h m.name x merged
    exact ⟨y, hy, hyk.trans (kind.trans hk)⟩
  | counter =>
    rw [hk] at h
    cases h
    exact ⟨x, merged, kind.trans hk⟩

theorem Memory.find?_write_gauge {v v' : Memory} {m : Metric} (hk : m.kind = .gauge)
    (h : v.write m = .ok v') : v'.find? m.name = some m.value := by
  obtain ⟨name, value⟩ := m
  obtain ⟨x, rfl⟩ : ∃ x, value = .gauge x := by
    rcases value with x | n
    · exact ⟨x, rfl⟩
    · cases hk
  obtain ⟨_, hvalid, h⟩ := bind_eq_ok_iff.1 h
  obtain ⟨w, hmerge, htick⟩ := bind_eq_ok_iff.1 h
  have hname : name ≠ pollCount := ((Metric.validate_eq_ok_iff.1 hvalid).2 x rfl).1
  obtain ⟨y, rfl, hy⟩ := merge_eq_ok_iff.1 hmerge
  obtain rfl : y = .gauge x := by
    rcases hy with ⟨-, hy⟩ | ⟨stored, -, hy⟩
    · exact hy
    · rcases Value.merge_eq_ok_iff.1 hy with ⟨_, _, -, hx, rfl⟩ | ⟨_, _, _, -, hx, -⟩
      · exact hx.symm
      · cases hx
  obtain ⟨z, rfl, -⟩ := merge_eq_ok_iff.1 htick
  have htick : name ≠ Metric.tick.name := hname
  rw [SortedMap.find?_insert, if_neg htick, SortedMap.find?_insert, if_pos rfl]

namespace Collector

namespace Endpoint

/-- Whether requests to an endpoint are meant to write. -/
def isWrite : Endpoint → Bool
  | write | writeBatch | writePath _ _ _ => true
  | index | ping | read | readPath _ _ => false

/-- The write that a request to an endpoint asks for: of the metric in its path, or of one record or
a list of records in its plain body. -/
inductive Asks (plain : ByteArray) : Endpoint → Write → Prop
  | path {kind name value : List Char} {k : Kind} {kindText nameText valueText : String} {x : Value}
    (hkind : Http.segmentText? kind = some kindText) (hk : Kind.parse kindText = .ok k)
    (hname : Http.segmentText? name = some nameText) (hne : nameText ≠ "")
    (hvalue : Http.segmentText? value = some valueText) (hx : Value.parse k valueText = .ok x) :
    Asks plain (.writePath kind name value) (.set ⟨nameText, x⟩)
  | record {record : Record} {m : Metric} (hsize : plain.size ≤ maxHandledBody)
    (hrecord : Record.parse? (Bytes.toList plain) = some record) (hm : record.toMetric = .ok m) :
    Asks plain .write (.set m)
  | batch {ms : List Metric} (hsize : plain.size ≤ maxHandledBody)
    (hms : Batch.decode (Bytes.toList plain) = .ok ms) : Asks plain .writeBatch (.setAll ms)

/-- The answer to a write that was done and left the repository `r`. -/
inductive Replies (r : Repository) : Endpoint → Write → Http.Response → Prop
  | path {kind name value : List Char} {m : Metric} :
    Replies r (.writePath kind name value) (.set m) (.plain 200
      ("updated " ++ m.kind.name ++ " " ++ m.name ++ " = " ++ m.value.text ++ "\n"))
  | record {m stored : Metric} (h : r.store.metric m.name = .ok stored)
    (hk : stored.kind = m.kind) : Replies r .write (.set m) (recordResponse stored)
  | batch {ms : List Metric} : Replies r .writeBatch (.setAll ms) (.of 200 .json (Bytes.ofList
      (Json.writeText (toString ms.length ++ " metrics received"))))

end Endpoint

theorem limited_eq_ok_iff {plain plain' : ByteArray} :
    limited plain = .ok plain' ↔ plain.size ≤ maxHandledBody ∧ plain' = plain := by
  unfold limited
  split_ifs with h
  · simp [h]
  · simp [Nat.not_lt.1 h, eq_comm]

theorem valid_eq_ok_iff {α : Type} {x : Except Rejection α} {a : α} :
    valid x = .ok a ↔ x = .ok a := by
  cases x <;> simp [valid]

theorem segment_eq_ok_iff {cs : List Char} {text : String} :
    segment cs = .ok text ↔ Http.segmentText? cs = some text := by
  unfold segment
  cases Http.segmentText? cs <;> simp

theorem accepted_eq_ok_iff {x : Except Storage.Error Repository} {r : Repository} :
    accepted x = .ok r ↔ x = .ok r := by
  cases x <;> simp [accepted]

theorem readBatch_eq_ok_iff {plain : ByteArray} {ms : List Metric} :
    readBatch plain = .ok ms ↔ Batch.decode (Bytes.toList plain) = .ok ms := by
  unfold readBatch
  split <;> simp [*]

theorem readMetric_eq_ok_iff {plain : ByteArray} {m : Metric} :
    readMetric plain = .ok m ↔
      ∃ record, Record.parse? (Bytes.toList plain) = some record ∧ record.toMetric = .ok m := by
  unfold readMetric readRecord
  cases Record.parse? (Bytes.toList plain) with
  | none => simp [bind, Except.bind]
  | some record => simp [bind, Except.bind, valid_eq_ok_iff]

theorem readPath_eq_ok_iff {kind name value : String} {m : Metric} :
    readPath kind name value = .ok m ↔
      ∃ k x, Kind.parse kind = .ok k ∧ name ≠ "" ∧ Value.parse k value = .ok x ∧ m = ⟨name, x⟩ := by
  unfold readPath
  simp only [bind_eq_ok_iff, valid_eq_ok_iff]
  by_cases h : name = ""
  · simp [h]
  · have nonempty : name.isEmpty = false := by simpa using h
    simp only [nonempty, Bool.false_eq_true, if_false, bind_eq_ok_iff, valid_eq_ok_iff,
      Except.ok.injEq, ne_eq, h, not_false_eq_true, true_and]
    simp [eq_comm]

theorem stored_eq_ok_iff {r : Repository} {name : String} {kind : Kind} {m : Metric} :
    stored r name kind = .ok m ↔ r.store.metric name = .ok m ∧ m.kind = kind := by
  unfold stored
  cases r.store.metric name with
  | error why => simp
  | ok found =>
    simp only [Except.ok.injEq]
    split_ifs with h
    · simp only [Except.ok.injEq]
      exact ⟨fun e => ⟨e, e ▸ h⟩, fun e => e.1⟩
    · simp only [false_iff, not_and]
      rintro rfl
      exact h

theorem stored_of_set {s : Store} {v : Memory} {watcher : Option Channel} {m : Metric}
    {r : Repository} (h : Repository.set ⟨s.holding v, watcher⟩ m = .ok r) :
    ∃ found, stored r m.name m.kind = .ok found := by
  obtain ⟨t, ht, h⟩ := bind_eq_ok_iff.1 h
  obtain rfl := Except.ok.inj h
  rcases (Store.apply_holding s v (.set m)).outcome with ⟨why, -, hs⟩ | ⟨v', t', hv, hs, rfl⟩
  · cases hs.symm.trans ht
  · cases hs.symm.trans ht
    obtain ⟨x, hx, hk⟩ := Memory.find?_write ((Memory.set_eq_write v m).symm.trans hv)
    exact ⟨_, stored_eq_ok_iff.2
      ⟨Store.metric_holding_eq_ok_iff.2 ⟨x, hx, rfl⟩, (Store.kind_shown s x).trans hk⟩⟩

theorem writing_eq_ok_iff {r r' : Repository} {response : Http.Response}
    {w : Except Error (Repository × Except Error Http.Response)} :
    writing r w = (r', .ok response) ↔ w = .ok (r', .ok response) := by
  cases w <;> simp [writing]

theorem writing_eq_error_iff {r r' : Repository} {e : Error}
    {w : Except Error (Repository × Except Error Http.Response)} :
    writing r w = (r', .error e) ↔ r = r' ∧ w = .error e ∨ w = .ok (r', .error e) := by
  cases w <;> simp [writing]

namespace Endpoint

theorem handle_eq_ok_iff {e : Endpoint} (he : e.isWrite) {r r' : Repository} {plain : ByteArray}
    {response : Http.Response} :
    e.handle r plain = (r', .ok response) ↔
      ∃ w, e.Asks plain w ∧ r.apply w = .ok r' ∧ e.Replies r' w response := by
  cases e with
  | writePath kind name value =>
    simp only [handle, handleWritePath, writing_eq_ok_iff, bind_eq_ok_iff, segment_eq_ok_iff,
      readPath_eq_ok_iff, accepted_eq_ok_iff, Except.ok.injEq, Prod.mk.injEq]
    constructor
    · rintro ⟨_, hkind, _, hname, _, hvalue, _, ⟨k, x, hk, hne, hx, rfl⟩, _, hset, rfl, rfl⟩
      exact ⟨_, .path hkind hk hname hne hvalue hx, hset, .path⟩
    · rintro ⟨_, ⟨hkind, hk, hname, hne, hvalue, hx⟩, hset, ⟨⟩⟩
      exact ⟨_, hkind, _, hname, _, hvalue, _, ⟨_, _, hk, hne, hx, rfl⟩, _, hset, rfl, rfl⟩
  | write =>
    simp only [handle, handleWrite, writing_eq_ok_iff, bind_eq_ok_iff, limited_eq_ok_iff,
      readMetric_eq_ok_iff, accepted_eq_ok_iff, Except.ok.injEq, Prod.mk.injEq]
    constructor
    · rintro ⟨_, ⟨hsize, rfl⟩, m, ⟨record, hrecord, hm⟩, _, hset, rfl, hreply⟩
      obtain ⟨found, hfound, rfl⟩ := map_eq_ok_iff.1 hreply
      obtain ⟨hfound, hk⟩ := stored_eq_ok_iff.1 hfound
      exact ⟨_, .record hsize hrecord hm, hset, .record hfound hk⟩
    · rintro ⟨_, _ | ⟨hsize, hrecord, hm⟩, hset, _ | ⟨hfound, hk⟩⟩
      refine ⟨_, ⟨hsize, rfl⟩, _, ⟨_, hrecord, hm⟩, _, hset, rfl, ?_⟩
      rw [stored_eq_ok_iff.2 ⟨hfound, hk⟩]
      rfl
  | writeBatch =>
    simp only [handle, handleWriteBatch, writing_eq_ok_iff, bind_eq_ok_iff, limited_eq_ok_iff,
      readBatch_eq_ok_iff, accepted_eq_ok_iff, Except.ok.injEq, Prod.mk.injEq]
    constructor
    · rintro ⟨_, ⟨hsize, rfl⟩, ms, hms, _, hset, rfl, rfl⟩
      exact ⟨_, .batch hsize hms, hset, .batch⟩
    · rintro ⟨_, _ | _ | ⟨hsize, hms⟩, hset, ⟨⟩⟩
      exact ⟨_, ⟨hsize, rfl⟩, _, hms, _, hset, rfl, rfl⟩
  | _ => cases he

theorem Replies.status {e : Endpoint} {r : Repository} {w : Write} {response : Http.Response}
    (h : e.Replies r w response) : response.status = 200 := by
  cases h <;> rfl

theorem Asks.unique {e : Endpoint} {plain : ByteArray} {w w' : Write} (h : e.Asks plain w)
    (h' : e.Asks plain w') : w = w' := by
  cases h <;> cases h' <;> simp_all

theorem Asks.wrote {e : Endpoint} {plain : ByteArray} {w : Write} (h : e.Asks plain w)
    (r : Repository) (store : Store) : r.wrote w store = ⟨store, r.watcher.map Channel.notify⟩ := by
  cases h <;> rfl

theorem Asks.reply {e : Endpoint} {plain : ByteArray} {w : Write} (h : e.Asks plain w) {s : Store}
    {v : Memory} {watcher : Option Channel} {r : Repository}
    (hw : Repository.apply ⟨s.holding v, watcher⟩ w = .ok r) : ∃ reply, e.Replies r w reply := by
  cases h with
  | path => exact ⟨_, .path⟩
  | record =>
    obtain ⟨found, hfound⟩ := stored_of_set hw
    obtain ⟨hfound, hk⟩ := stored_eq_ok_iff.1 hfound
    exact ⟨_, .record hfound hk⟩
  | batch => exact ⟨_, .batch⟩

/-- A handler of a write that fails leaves the repository as it was, for it does not fail behind the
write. -/
theorem handle_eq_error {e : Endpoint} (he : e.isWrite) {s : Store} {v : Memory}
    {watcher : Option Channel} {r' : Repository} {plain : ByteArray} {why : Error}
    (h : e.handle ⟨s.holding v, watcher⟩ plain = (r', .error why)) :
    r' = ⟨s.holding v, watcher⟩ := by
  cases e with
  | writePath kind name value =>
    rcases writing_eq_error_iff.1 h with ⟨hr, -⟩ | h
    · exact hr.symm
    · simp [bind_eq_ok_iff] at h
  | write =>
    rcases writing_eq_error_iff.1 h with ⟨hr, -⟩ | h
    · exact hr.symm
    · simp only [bind_eq_ok_iff, accepted_eq_ok_iff, Except.ok.injEq, Prod.mk.injEq] at h
      obtain ⟨_, -, m, -, r, hset, rfl, hreply⟩ := h
      obtain ⟨found, hfound⟩ := stored_of_set hset
      rw [hfound] at hreply
      cases hreply
  | writeBatch =>
    rcases writing_eq_error_iff.1 h with ⟨hr, -⟩ | h
    · exact hr.symm
    · simp [bind_eq_ok_iff] at h
  | _ => cases he

theorem handle_read {e : Endpoint} (he : e.isWrite = false) (r : Repository) (plain : ByteArray) :
    (e.handle r plain).1 = r := by
  cases e with
  | writePath _ _ _ => cases he
  | write => cases he
  | writeBatch => cases he
  | _ => rfl

end Endpoint

theorem Error.status_ne (e : Error) : e.status ≠ 200 := by
  cases e with
  | invalid why => simp only [status]; split_ifs <;> decide
  | _ => exact Nat.ne_of_beq_eq_false rfl

/-- A request for the write `w`, which has to be posted. -/
def Asked (c : Frame.Receiver) (q : Http.Request) (e : Endpoint) (w : Write) : Prop :=
  q.method = "POST" ∧ ∃ plain, unframe c q = .ok plain ∧ e.Asks plain w

theorem Asked.unique {c : Frame.Receiver} {q : Http.Request} {e : Endpoint} {w w' : Write}
    (h : Asked c q e w) (h' : Asked c q e w') : w = w' := by
  obtain ⟨-, plain, hplain, hasks⟩ := h
  obtain ⟨-, plain', hplain', hasks'⟩ := h'
  cases hplain.symm.trans hplain'
  exact hasks.unique hasks'

def onItsWay (c : Frame.Receiver) (q : Http.Request) (response : Http.Response) : Http.Response :=
  finish q (frame c (namesGzip q "accept-encoding") response)

theorem status_onItsWay (c : Frame.Receiver) (q : Http.Request) (response : Http.Response) :
    (onItsWay c q response).status = response.status := rfl

theorem respond_unopened {c : Frame.Receiver} {q : Http.Request} {why : Error}
    (h : unframe c q = .error why) (r : Repository) :
    respond c r q = (r, finish q why.response) := by
  simp only [respond, h]

theorem respond_opened {c : Frame.Receiver} {q : Http.Request} {plain : ByteArray}
    (h : unframe c q = .ok plain) (r : Repository) :
    respond c r q = ((answer q r plain).1, onItsWay c q (answer q r plain).2) := by
  simp only [respond, h, onItsWay]

theorem respond_eq {c : Frame.Receiver} {q : Http.Request} {plain : ByteArray} {e : Endpoint}
    (hplain : unframe c q = .ok plain) (he : Endpoint.ofTarget? q.target = some e)
    (hmethod : q.method ∈ e.methods) (r : Repository) :
    respond c r q = ((e.handle r plain).response.1, onItsWay c q (e.handle r plain).response.2) := by
  rw [respond_opened hplain, answer, he]
  simp only [if_pos hmethod]

theorem respond_refused {c : Frame.Receiver} {q : Http.Request}
    (h : ∀ plain e, unframe c q = .ok plain → Endpoint.ofTarget? q.target = some e →
      q.method ∉ e.methods) (r : Repository) :
    (respond c r q).1 = r ∧ (respond c r q).2.status ≠ 200 := by
  cases hplain : unframe c q with
  | error why =>
    rw [respond_unopened hplain]
    exact ⟨rfl, why.status_ne⟩
  | ok plain =>
    have answered : ∃ status, status ≠ 200 ∧ answer q r plain = (r, .empty status) := by
      unfold answer
      cases he : Endpoint.ofTarget? q.target with
      | none => exact ⟨404, by decide, rfl⟩
      | some e => exact ⟨405, by decide, if_neg (h plain e hplain he)⟩
    obtain ⟨status, hstatus, hanswer⟩ := answered
    rw [respond_opened hplain, hanswer]
    exact ⟨rfl, hstatus⟩

theorem methods_eq_post {e : Endpoint} (he : e.isWrite) : e.methods = ["POST"] := by
  cases e with
  | writePath _ _ _ => rfl
  | write => rfl
  | writeBatch => rfl
  | _ => cases he

section

variable {c : Frame.Receiver} {q : Http.Request} {e : Endpoint}

/-- The outcome of a request that asks for a write: it is done, with one notice, or refused. -/
theorem respond_asked (htarget : Endpoint.ofTarget? q.target = some e) (he : e.isWrite) {w : Write}
    (h : Asked c q e w) (s : Store) (v : Memory) (watcher : Option Channel) :
    (∃ store reply, (s.holding v).apply w = .ok store ∧
      e.Replies ⟨store, watcher.map Channel.notify⟩ w reply ∧
      respond c ⟨s.holding v, watcher⟩ q =
        (⟨store, watcher.map Channel.notify⟩, onItsWay c q reply)) ∨
    (∃ why, (s.holding v).apply w = .error why) ∧ (respond c ⟨s.holding v, watcher⟩ q).1 =
      ⟨s.holding v, watcher⟩ ∧ (respond c ⟨s.holding v, watcher⟩ q).2.status ≠ 200 := by
  obtain ⟨hmethod, plain, hplain, hasks⟩ := h
  have reached := respond_eq hplain htarget (by rw [methods_eq_post he, hmethod]; exact .head _)
    ⟨s.holding v, watcher⟩
  have whole := Repository.apply_eq_map ⟨s.holding v, watcher⟩ w
  cases happly : (s.holding v).apply w with
  | ok store =>
    rw [show Store.apply _ w = _ from happly] at whole
    replace whole : Repository.apply ⟨s.holding v, watcher⟩ w =
      .ok ⟨store, watcher.map Channel.notify⟩ := whole.trans (congrArg _ (hasks.wrote _ store))
    obtain ⟨reply, hreply⟩ := hasks.reply whole
    refine Or.inl ⟨store, reply, rfl, hreply, ?_⟩
    rw [reached, (Endpoint.handle_eq_ok_iff he).2 ⟨w, hasks, whole, hreply⟩]
    rfl
  | error why =>
    rw [show Store.apply _ w = _ from happly] at whole
    refine Or.inr ⟨⟨why, rfl⟩, ?_⟩
    cases hhandle : e.handle ⟨s.holding v, watcher⟩ plain with
    | mk r' outcome =>
      cases outcome with
      | ok response =>
        obtain ⟨w', hasks', hw', -⟩ := (Endpoint.handle_eq_ok_iff he).1 hhandle
        rw [← hasks.unique hasks', whole] at hw'
        cases hw'
      | error failed =>
        obtain rfl := Endpoint.handle_eq_error he hhandle
        rw [reached, hhandle]
        exact ⟨rfl, failed.status_ne⟩

theorem respond_unasked (htarget : Endpoint.ofTarget? q.target = some e) (he : e.isWrite)
    (h : ∀ w, ¬Asked c q e w) (s : Store) (v : Memory) (watcher : Option Channel) :
    (respond c ⟨s.holding v, watcher⟩ q).1 = ⟨s.holding v, watcher⟩ ∧
      (respond c ⟨s.holding v, watcher⟩ q).2.status ≠ 200 := by
  by_cases hreach : ∃ plain, unframe c q = .ok plain ∧ q.method ∈ e.methods
  · obtain ⟨plain, hplain, hmethod⟩ := hreach
    rw [respond_eq hplain htarget hmethod]
    cases hhandle : e.handle ⟨s.holding v, watcher⟩ plain with
    | mk r' outcome =>
      cases outcome with
      | ok response =>
        obtain ⟨w, hasks, -⟩ := (Endpoint.handle_eq_ok_iff he).1 hhandle
        rw [methods_eq_post he] at hmethod
        exact absurd ⟨List.mem_singleton.1 hmethod, plain, hplain, hasks⟩ (h w)
      | error failed =>
        obtain rfl := Endpoint.handle_eq_error he hhandle
        exact ⟨rfl, failed.status_ne⟩
  · refine respond_refused (fun plain e' hplain he' hmethod => hreach ⟨plain, hplain, ?_⟩) _
    cases htarget.symm.trans he'
    exact hmethod

/-- An endpoint that is meant to write does what was asked, with one notice, or nothing at all. -/
theorem respond_write (c : Frame.Receiver) (htarget : Endpoint.ofTarget? q.target = some e)
    (he : e.isWrite) (s : Store) (v : Memory) (watcher : Option Channel) :
    (∃ w store reply, Asked c q e w ∧ (s.holding v).apply w = .ok store ∧
      e.Replies ⟨store, watcher.map Channel.notify⟩ w reply ∧
      respond c ⟨s.holding v, watcher⟩ q =
        (⟨store, watcher.map Channel.notify⟩, onItsWay c q reply)) ∨
    (∀ w store, Asked c q e w → (s.holding v).apply w ≠ .ok store) ∧
      (respond c ⟨s.holding v, watcher⟩ q).1 = ⟨s.holding v, watcher⟩ ∧
      (respond c ⟨s.holding v, watcher⟩ q).2.status ≠ 200 := by
  by_cases hasked : ∃ w, Asked c q e w
  · obtain ⟨w, hw⟩ := hasked
    rcases respond_asked htarget he hw s v watcher with
      ⟨store, reply, hstore, hreply, hrespond⟩ | ⟨⟨why, hwhy⟩, hsame, hstatus⟩
    · exact Or.inl ⟨w, store, reply, hw, hstore, hreply, hrespond⟩
    · refine Or.inr ⟨fun w' store hw' hstore => ?_, hsame, hstatus⟩
      cases hw.unique hw'
      cases hwhy.symm.trans hstore
  · have hnone := not_exists.1 hasked
    exact Or.inr ⟨fun w _ hw => absurd hw (hnone w), respond_unasked htarget he hnone s v watcher⟩

theorem respond_read (htarget : Endpoint.ofTarget? q.target = some e) (he : e.isWrite = false)
    (r : Repository) : (respond c r q).1 = r := by
  by_cases hreach : ∃ plain, unframe c q = .ok plain ∧ q.method ∈ e.methods
  · obtain ⟨plain, hplain, hmethod⟩ := hreach
    rw [respond_eq hplain htarget hmethod]
    have same := Endpoint.handle_read he r plain
    unfold Handled.response
    split <;> simp_all
  · refine (respond_refused (fun plain e' hplain he' hmethod => hreach ⟨plain, hplain, ?_⟩) r).1
    cases htarget.symm.trans he'
    exact hmethod

end

/-- The repository is what the answers say. A response that is not 200 left it as it was and sent no
notice, and so did every response of an endpoint that is not meant to write. An endpoint that is
answers 200 exactly to a request for a write that the store accepts, whose outcome is the repository
then, with one notice sent; the reply to a single record is the metric that is stored then. -/
theorem responses_refine_repository {s : Store} (h : s.Fresh) (events : List Store.Event)
    (watcher : Option Channel) (c : Frame.Receiver) (q : Http.Request) :
    let r : Repository := ⟨s.reach events, watcher⟩
    let after := (respond c r q).1
    let response := (respond c r q).2
    (response.status ≠ 200 → after = r) ∧
    (∀ e, Endpoint.ofTarget? q.target = some e → e.isWrite = false → after = r) ∧
    ∀ e, Endpoint.ofTarget? q.target = some e → e.isWrite →
      (response.status = 200 ↔ ∃ w store, Asked c q e w ∧ r.store.apply w = .ok store) ∧
      ∀ w, Asked c q e w → response.status = 200 →
        ∃ store reply, r.store.apply w = .ok store ∧
          after = ⟨store, watcher.map Channel.notify⟩ ∧ e.Replies after w reply ∧
          response = onItsWay c q reply := by
  obtain ⟨v, es, hreach, -⟩ := s.reach_posted .empty events
  rw [h.holding_empty] at hreach
  rw [hreach]
  intro r after response
  refine ⟨fun hstatus => ?_, fun e htarget he => respond_read htarget he r, fun e htarget he => ?_⟩
  · cases htarget : Endpoint.ofTarget? q.target with
    | none =>
      refine (respond_refused (fun plain e _ he => ?_) r).1
      cases htarget.symm.trans he
    | some e =>
      cases he : e.isWrite with
      | false => exact respond_read htarget he r
      | true =>
        rcases respond_write c htarget he s v watcher with
          ⟨w, store, reply, -, -, hreply, hrespond⟩ | ⟨-, hsame, -⟩
        · refine absurd ?_ hstatus
          simp only [response, r, hrespond, status_onItsWay]
          exact hreply.status
        · exact hsame
  · rcases respond_write c htarget he s v watcher with
      ⟨w, store, reply, hw, hstore, hreply, hrespond⟩ | ⟨hrefused, -, hstatus⟩
    · have hstatus : response.status = 200 := by
        simp only [response, r, hrespond, status_onItsWay]
        exact hreply.status
      refine ⟨iff_of_true hstatus ⟨w, store, hw, hstore⟩, fun w' hw' _ => ?_⟩
      cases hw.unique hw'
      exact ⟨store, reply, hstore, congrArg Prod.fst hrespond,
        by simpa only [after, r, hrespond] using hreply, congrArg Prod.snd hrespond⟩
    · refine ⟨iff_of_false hstatus ?_, fun _ _ h => absurd h hstatus⟩
      rintro ⟨w, store, hw, hstore⟩
      exact hrefused w store hw hstore

/-- A counter that is written as a record is answered with the sum. -/
theorem record_is_answered_as_stored :
    let r : Repository :=
      ⟨(Store.memory .empty).reach [.call (.set ⟨"hits", .counter 2⟩)], some ⟨1, 0⟩⟩
    let q : Http.Request := ⟨"POST", "/update", [],
      "\x7b\"id\":\"hits\",\"type\":\"counter\",\"delta\":3\x7d".toUTF8⟩
    (respond ⟨none, none⟩ r q).1 = ⟨.memory [("hits", .counter 5)], some ⟨1, 1⟩⟩ ∧
      (respond ⟨none, none⟩ r q).2.body.data =
        "\x7b\"id\":\"hits\",\"type\":\"counter\",\"delta\":5\x7d".toUTF8.data := by
  intro r q
  obtain ⟨-, -, written⟩ := responses_refine_repository .memory
    [.call (.set ⟨"hits", .counter 2⟩)] (some ⟨1, 0⟩) ⟨none, none⟩ q
  obtain ⟨hstatus, hafter⟩ := written .write (by decide) rfl
  have hrecord : Record.parse? (Bytes.toList q.body) = some ⟨"hits", "counter", none, some 3⟩ := by
    decide
  have hasked : Asked ⟨none, none⟩ q .write (.set ⟨"hits", .counter 3⟩) :=
    ⟨rfl, q.body, rfl, .record (by decide) hrecord (by decide)⟩
  obtain ⟨store, reply, hstore, hafter, hreply, hresponse⟩ :=
    hafter _ hasked (hstatus.2 ⟨_, _, hasked, rfl⟩)
  cases hstore
  refine ⟨hafter, ?_⟩
  rw [hresponse]
  cases hreply with
  | record hfound hk =>
    rw [hafter] at hfound
    cases hfound
    decide

end Collector
end Telemetry
