import Telemetry.Proofs.Grammar
import Telemetry.Proofs.Response
import Telemetry.Proofs.Status

/-! One metric in three requests: in a path, as a record and as the only record of a list. All of them
come to the same metric, or the same reason why there is none, so all of them leave the same
repository under the same status, and the same answer if the metric is refused. -/

namespace Telemetry

/-- A record that has the metric which three texts spell: its kind and name, and the value if the kind
is known. -/
structure Record.Spelt (r : Record) (kind name value : String) : Prop where
  type : r.type = kind
  id : r.id = name
  carried : ∀ k, Kind.parse kind = .ok k → ∃ x, Value.parse k value = .ok x ∧ r.carried k = some x

namespace Collector

/-- A request that gets to the handler of an endpoint. -/
structure Reaches (c : Frame.Receiver) (q : Http.Request) (e : Endpoint) (plain : ByteArray) :
    Prop where
  opened : unframe c q = .ok plain
  endpoint : Endpoint.ofTarget? q.target = some e
  method : q.method ∈ e.methods

/-- Three requests for the same: the first has the texts in its path, the second has the JSON in its
body and the third has a list of nothing else there. -/
structure Posted (c : Frame.Receiver) (kind name value : String) (json : Json)
    (inPath single list : Http.Request) : Prop where
  inPath : ∃ k n t plain, Reaches c inPath (.writePath k n t) plain ∧
    Http.segmentText? k = some kind ∧ Http.segmentText? n = some name ∧
    Http.segmentText? t = some value
  single : ∃ plain, Reaches c single .write plain ∧ plain.size ≤ maxHandledBody ∧
    Json.parse? (Bytes.toList plain) = some json
  list : ∃ plain, Reaches c list .writeBatch plain ∧ plain.size ≤ maxHandledBody ∧
    Json.parse? (Bytes.toList plain) = some (.array [json])

/-- Two answers to a write: the same repository, the same status, and the same response if the write
was not done. -/
structure Agree (a b : Repository × Http.Response) : Prop where
  repository : a.1 = b.1
  status : a.2.status = b.2.status
  refusal : a.2.status ≠ 200 → a.2 = b.2

/-- What an answer is if a write comes to this: done, and the repository is what it left, or refused,
and the repository is what it was. -/
def Settles (r : Repository) (outcome : Except Error Repository)
    (a : Repository × Http.Response) : Prop :=
  match outcome with
  | .ok r' => a.1 = r' ∧ a.2.status = 200
  | .error e => a = (r, e.response)

section

variable {c : Frame.Receiver} {q : Http.Request} {e : Endpoint} {plain : ByteArray} {r : Repository}

theorem Settles.agree {outcome : Except Error Repository} {a b : Repository × Http.Response}
    (ha : Settles r outcome a) (hb : Settles r outcome b) : Agree a b := by
  rcases outcome with why | r'
  · obtain rfl : a = b := ha.trans hb.symm
    exact ⟨rfl, rfl, fun _ => rfl⟩
  · exact ⟨ha.1.trans hb.1.symm, ha.2.trans hb.2.symm, fun hne => absurd ha.2 hne⟩

theorem Reaches.respond_eq (h : Reaches c q e plain) (r : Repository) :
    respond c r q = ((e.handle r plain).response.1, onItsWay c q (e.handle r plain).response.2) :=
  Collector.respond_eq h.opened h.endpoint h.method r

theorem Reaches.onItsWay_error (h : Reaches c q e plain) (he : e.isWrite) (why : Error) :
    onItsWay c q why.response = why.response := by
  have hmethod : q.method = "POST" := by
    have := h.method
    rwa [methods_eq_post he, List.mem_singleton] at this
  have hallowed : allowed q = none := by
    simp [allowed, h.endpoint, h.method]
  have hframe : frame c (namesGzip q "accept-encoding") why.response = why.response :=
    frame_plain c _ why.status why.message
  rw [onItsWay, hframe, finish, hallowed, if_neg (by simp [hmethod])]
  rfl

/-- A handler that reads a write and does it, and always has a response to that. -/
theorem Reaches.settles (h : Reaches c q e plain) (he : e.isWrite) {α : Type} (read : Except Error α)
    (write : α → Except Storage.Error Repository) (reply : α → Repository → Except Error Http.Response)
    (hhandle : e.handle r plain =
      writing r (read >>= fun a => accepted (write a) >>= fun r' => .ok (r', reply a r')))
    (hreply : ∀ a r', read = .ok a → write a = .ok r' → ∃ response, reply a r' = .ok response ∧
      response.status = 200) :
    Settles r (read >>= fun a => accepted (write a)) (respond c r q) := by
  rw [h.respond_eq, hhandle]
  match read, hreply with
  | .error why, _ => exact Prod.ext rfl (h.onItsWay_error he why)
  | .ok a, hreply =>
    match hwrite : write a with
    | .error why =>
      simp only [bind, Except.bind, hwrite, accepted, writing]
      exact Prod.ext rfl (h.onItsWay_error he (.ofWrite why))
    | .ok r' =>
      obtain ⟨response, hresponse, hstatus⟩ := hreply a r' rfl hwrite
      simp only [bind, Except.bind, hwrite, accepted, writing, hresponse]
      exact ⟨rfl, hstatus⟩

end

theorem readPath_eq {record : Record} {kind name value : String} (hname : name ≠ "")
    (h : record.Spelt kind name value) : readPath kind name value = valid record.toMetric := by
  obtain ⟨rfl, rfl, hcarried⟩ := h
  match hparse : Kind.parse record.type with
  | .ok k =>
    obtain ⟨x, hx, hrecord⟩ := hcarried k hparse
    rw [readPath_eq_ok_iff.2 ⟨k, x, hparse, hname, hx, rfl⟩,
      Record.toMetric_eq_ok_iff.2 ⟨k, x, hparse, hname, hrecord, rfl⟩]
    rfl
  | .error why =>
    rw [readPath, Record.toMetric, Record.key, hparse]
    rfl

theorem readMetric_eq {plain : ByteArray} {json : Json}
    (hjson : Json.parse? (Bytes.toList plain) = some json) :
    readMetric plain = match Record.ofJson? json with
      | some record => valid record.toMetric
      | none => .error .malformed := by
  rw [readMetric, readRecord, Record.parse?, hjson]
  show (match Record.ofJson? json with | some record => _ | none => _) >>= _ = _
  rcases Record.ofJson? json with _ | record <;> rfl

theorem readBatch_eq {plain : ByteArray} {json : Json}
    (hjson : Json.parse? (Bytes.toList plain) = some (.array [json])) :
    readBatch plain = match Record.ofJson? json with
      | some record => valid record.toMetric >>= fun m => .ok [m]
      | none => .error .malformed := by
  have hrecords : Batch.records? (Bytes.toList plain) = (Record.ofJson? json).map ([·]) := by
    rw [Batch.records?, hjson]
    show [json].mapM Record.ofJson? = _
    rcases h : Record.ofJson? json with _ | record <;> simp [h]
  rw [readBatch, Batch.decode, hrecords]
  rcases Record.ofJson? json with _ | record
  · rfl
  · simp only [Option.map_some, List.mapM_cons, List.mapM_nil]
    rcases record.toMetric with why | m <;> rfl

section

variable {c : Frame.Receiver} {q : Http.Request} {plain : ByteArray}
  (s : Store) (v : Memory) (watcher : Option Channel)

theorem settles_writePath {k n t : List Char} {kind name value : String}
    (h : Reaches c q (.writePath k n t) plain) (hkind : Http.segmentText? k = some kind)
    (hname : Http.segmentText? n = some name) (hvalue : Http.segmentText? t = some value) :
    let r : Repository := ⟨s.holding v, watcher⟩
    Settles r (readPath kind name value >>= fun m => accepted (r.set m)) (respond c r q) := by
  intro r
  refine h.settles rfl (readPath kind name value) r.set (fun m _ => .ok (.plain 200
    ("updated " ++ m.kind.name ++ " " ++ m.name ++ " = " ++ m.value.text ++ "\n")))
    (Endpoint.handleWritePath_eq r hkind hname hvalue) ?_
  exact fun m r' _ _ => ⟨_, rfl, rfl⟩

theorem settles_write (h : Reaches c q .write plain) (hsize : plain.size ≤ maxHandledBody) :
    let r : Repository := ⟨s.holding v, watcher⟩
    Settles r (readMetric plain >>= fun m => accepted (r.set m)) (respond c r q) := by
  intro r
  refine h.settles rfl (readMetric plain) r.set
    (fun m r' => (stored r' m.name m.kind).map recordResponse)
    (Endpoint.handleWrite_eq r hsize) ?_
  intro m r' _ hset
  obtain ⟨found, hfound⟩ := stored_of_set hset
  exact ⟨recordResponse found, by rw [hfound]; rfl, rfl⟩

theorem settles_writeBatch (h : Reaches c q .writeBatch plain) (hsize : plain.size ≤ maxHandledBody) :
    let r : Repository := ⟨s.holding v, watcher⟩
    Settles r (readBatch plain >>= fun ms => accepted (r.setAll ms)) (respond c r q) := by
  intro r
  refine h.settles rfl (readBatch plain) r.setAll (fun ms _ => .ok (.of 200 .json (Bytes.ofList
    (Json.writeText (toString ms.length ++ " metrics received")))))
    (Endpoint.handleWriteBatch_eq r hsize) ?_
  exact fun ms r' _ _ => ⟨_, rfl, rfl⟩

end

/-- The three ways to write a metric. A path, a record and a list of one record that spell the same
metric leave the same repository, under the same status, and with the same answer if it is refused; the
record in brackets is such a list. If the record cannot be read and its kind is not known, all three
are refused as well. -/
theorem write_endpoints_agree {s : Store} (h : s.Fresh) (events : List Store.Event)
    (watcher : Option Channel) {c : Frame.Receiver} {kind name value : String} {json : Json}
    {inPath single list : Http.Request} (hname : name ≠ "")
    (posted : Posted c kind name value json inPath single list) :
    let r : Repository := ⟨s.reach events, watcher⟩
    (∀ record, Record.ofJson? json = some record → record.Spelt kind name value →
      Agree (respond c r inPath) (respond c r single) ∧
        Agree (respond c r single) (respond c r list)) ∧
    (Record.ofJson? json = none → ¬Kind.Names kind → ∀ q ∈ [inPath, single, list],
      (respond c r q).1 = r ∧ (respond c r q).2.status = 400) ∧
    ∀ bytes, Json.parse? bytes = some json →
      Json.parse? ('['.toUInt8 :: bytes ++ [']'.toUInt8]) = some (.array [json]) := by
  obtain ⟨v, hreach, -⟩ := h.exists_holding events
  rw [hreach]
  intro r
  obtain ⟨⟨k, n, t, plain, hpath, hkind, hn, hvalue⟩, ⟨plain₁, hsingle, hsize₁, hjson₁⟩,
    ⟨plain₂, hlist, hsize₂, hjson₂⟩⟩ := posted
  have spath := settles_writePath s v watcher hpath hkind hn hvalue
  have ssingle := settles_write s v watcher hsingle hsize₁
  have slist := settles_writeBatch s v watcher hlist hsize₂
  rw [readMetric_eq hjson₁] at ssingle
  rw [readBatch_eq hjson₂] at slist
  refine ⟨?_, ?_, fun bytes hbytes => Json.parse?_bracketed hbytes⟩
  · intro record hrecord hspelt
    rw [readPath_eq hname hspelt] at spath
    rw [hrecord] at ssingle slist
    have hset : (valid record.toMetric >>= fun m => .ok [m]) >>= (fun ms => accepted (r.setAll ms)) =
        valid record.toMetric >>= fun m => accepted (r.set m) := by
      rw [bind_assoc]
      refine bind_congr fun m => ?_
      exact congrArg accepted (Repository.set_eq_setAll r m).symm
    exact ⟨spath.agree ssingle, ssingle.agree (hset ▸ slist)⟩
  · intro hnone hunknown
    rw [hnone] at ssingle slist
    obtain ⟨why, hwhy⟩ : ∃ why, Kind.parse kind = .error why := by
      match hparse : Kind.parse kind with
      | .ok k => exact absurd ⟨k, hparse⟩ hunknown
      | .error why => exact ⟨why, rfl⟩
    obtain rfl := Kind.parse_eq_error hwhy
    rw [readPath, hwhy] at spath
    intro q hq
    simp only [List.mem_cons, List.not_mem_nil, or_false] at hq
    rcases hq with rfl | rfl | rfl
    · rw [show respond c r q = _ from spath]
      exact ⟨rfl, rfl⟩
    · rw [show respond c r q = _ from ssingle]
      exact ⟨rfl, rfl⟩
    · rw [show respond c r q = _ from slist]
      exact ⟨rfl, rfl⟩

/-- A gauge under the name of a counter is refused in the same words, however its zero is written. -/
theorem gauge_is_written_alike :
    let c : Frame.Receiver := ⟨none, none⟩
    let r : Repository :=
      ⟨(Store.memory .empty).reach [.call (.set ⟨"hits", .counter 2⟩)], none⟩
    let inPath : Http.Request := ⟨"POST", "/update/%20Gauge/hits/-.0", [], ByteArray.empty⟩
    let single : Http.Request := ⟨"POST", "/update", [],
      "\x7b\"id\":\"hits\",\"type\":\" Gauge\",\"value\":-0e7\x7d".toUTF8⟩
    let list : Http.Request := ⟨"POST", "/updates", [],
      "[\x7b\"id\":\"hits\",\"type\":\" Gauge\",\"value\":-0e7\x7d]".toUTF8⟩
    (respond c r list).2.body.data =
        "metric 'hits' is stored as counter, cannot write it as gauge".toUTF8.data ∧
      (respond c r inPath).2 = (respond c r single).2 ∧ (respond c r single).2 = (respond c r list).2 := by
  intro c r inPath single list
  have hjson : ∃ json, Json.parse? (Bytes.toList single.body) = some json ∧
      Json.parse? (Bytes.toList list.body) = some (.array [json]) ∧
      Record.ofJson? json = some ⟨"hits", " Gauge", some (.ofMagnitude true 0), none⟩ := by
    refine ⟨_, rfl, rfl, ?_⟩
    decide +kernel
  obtain ⟨json, hsingle, hlist, hrecord⟩ := hjson
  have posted : Posted c " Gauge" "hits" "-.0" json inPath single list := by
    refine ⟨⟨"%20Gauge".toList, "hits".toList, "-.0".toList, _, ⟨rfl, by decide, by decide⟩, by decide,
      by decide, by decide⟩, ⟨_, ⟨rfl, by decide, by decide⟩, by decide, hsingle⟩,
      ⟨_, ⟨rfl, by decide, by decide⟩, by decide, hlist⟩⟩
  obtain ⟨agree, -, -⟩ := write_endpoints_agree .memory [.call (.set ⟨"hits", .counter 2⟩)] none
    (by decide) posted
  have hspelt : Record.Spelt ⟨"hits", " Gauge", some (.ofMagnitude true 0), none⟩ " Gauge" "hits"
      "-.0" := by
    refine ⟨rfl, rfl, fun k hk => ?_⟩
    obtain rfl : Kind.gauge = k := Except.ok.inj hk
    exact ⟨.gauge (.ofMagnitude true 0), by decide, rfl⟩
  obtain ⟨hfirst, hsecond⟩ := agree _ hrecord hspelt
  have hstatus : (respond c r list).2.status = 400 := by decide +kernel
  have hbody : (respond c r list).2.body.data =
      "metric 'hits' is stored as counter, cannot write it as gauge".toUTF8.data := by decide +kernel
  have hsame := hsecond.refusal (by rw [hsecond.status, hstatus]; decide)
  refine ⟨hbody, hfirst.refusal (by rw [hfirst.status, hsecond.status, hstatus]; decide), hsame⟩

/-- A record of a gauge that is zero, with `n` digits behind the point. -/
def zeroRecord (n : ℕ) : List UInt8 :=
  Json.utf8 "\x7b\"id\":\"a\",\"type\":\"gauge\",\"value\":" ++
    (⟨false, ['0'], Real64.zeros n, none⟩ : Json.Numeral).text.map Char.toUInt8 ++ ['\x7d'.toUInt8]

theorem length_zeroRecord (n : ℕ) : n < (zeroRecord n).length := by
  rcases n with _ | n
  · exact Nat.zero_lt_succ _
  · simp [zeroRecord, Json.Numeral.text, Json.Numeral.tail, Real64.zeros]
    omega

theorem parse?_zeroRecord (n : ℕ) :
    Record.parse? (zeroRecord n) = some ⟨"a", "gauge", some .zero, none⟩ := by
  let zero : Json.Numeral := ⟨false, ['0'], Real64.zeros n, none⟩
  have hzero : zero.WellFormed :=
    ⟨⟨by simp [zero], Json.isDigit_zeros 1, fun _ => rfl⟩, Json.isDigit_zeros n⟩
  have hreal : zero.number.real? = some .zero := by
    have hcoeff : Nat.ofDigitChars 10 (['0'] ++ Real64.zeros n) 0 = 0 := by
      simp [Real64.zeros, Nat.ofDigitChars_cons, Nat.ofDigitChars_replicate_zero]
    have hdecimal : Real64.ofDecimal zero.number.decimal = .zero := by
      rw [Json.Numeral.number, hcoeff, Real64.ofDecimal, if_pos (Or.inl rfl)]
      rfl
    rw [Json.Number.real?, hdecimal]
    rfl
  have hhead : Json.Reads (Json.utf8 "\x7b\"id\":\"a\",\"type\":\"gauge\",\"value\":")
      [.openBrace, .string (Json.quoted "id"), .colon, .string (Json.quoted "a"), .comma,
        .string (Json.quoted "type"), .colon, .string (Json.quoted "gauge"), .comma,
        .string (Json.quoted "value"), .colon] := fun _ => rfl
  have hreads := hhead.append (Json.reads_numeral hzero Json.closes_brace)
  have hnumbers : Record.Numbers ⟨"a", "gauge", some .zero, none⟩ (some (some zero.number)) none :=
    ⟨by simp [Json.fieldOr, Json.ofNumber?, Json.optionalReal?, hreal]; rfl, rfl⟩
  have hscan : Json.scan (zeroRecord n) =
      some (Record.tokens "a" "gauge" (some (some zero.number)) none) := by
    rw [zeroRecord, List.append_assoc]
    exact hreads.scan_eq
  have hjson : Json.parse? (zeroRecord n) =
      some (Record.json "a" "gauge" (some (some zero.number)) none) := by
    simp [Json.parse?, hscan, Json.ofTokens?, Record.foldlM_tokens, Json.Parse.finish?]
  rw [Record.parse?, hjson]
  exact Record.ofJson_json hnumbers

/-- A number of more than eight million digits is the same number, but the record of it is too long to
be read; and one that is out of range is told before the kind is looked at. -/
theorem records_are_read_first :
    let c : Frame.Receiver := ⟨none, none⟩
    let r : Repository := .make (.memory .empty)
    let single : Http.Request := ⟨"POST", "/update", [], Bytes.ofList (zeroRecord 8388608)⟩
    (∃ record, Record.parse? (Bytes.toList single.body) = some record ∧
      record.Spelt "gauge" "a" "0" ∧
      (respond c r ⟨"POST", "/update/gauge/a/0", [], ByteArray.empty⟩).2.status = 200 ∧
      (respond c r single).2.status = 400) ∧
    (respond c r ⟨"POST", "/update/pulse/a/1", [], ByteArray.empty⟩).2.body.data =
      "the type of the metric is not defined: 'pulse'".toUTF8.data ∧
    (respond c r ⟨"POST", "/update", [],
        "\x7b\"id\":\"a\",\"type\":\"pulse\",\"value\":1e400\x7d".toUTF8⟩).2.body.data =
      "malformed JSON: not what was expected".toUTF8.data := by
  intro c r single
  have hlong : maxBody < single.body.size := by
    rw [Bytes.size_ofList]
    exact length_zeroRecord 8388608
  have hunread : unframe c single = .error .unreadable := if_pos hlong
  have hspelt : Record.Spelt ⟨"a", "gauge", some .zero, none⟩ "gauge" "a" "0" := by
    refine ⟨rfl, rfl, fun k hk => ?_⟩
    obtain rfl : Kind.gauge = k := Except.ok.inj hk
    exact ⟨.gauge .zero, by decide, rfl⟩
  refine ⟨⟨_, ?_, hspelt, by decide +kernel, ?_⟩, by decide +kernel, by decide +kernel⟩
  · rw [Bytes.toList_ofList]
    exact parse?_zeroRecord 8388608
  · rw [respond_unopened hunread]
    rfl

end Collector
end Telemetry
