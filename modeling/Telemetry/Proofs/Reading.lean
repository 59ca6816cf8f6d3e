import Telemetry.Proofs.Page
import Telemetry.Proofs.ValueText
import Telemetry.Proofs.Writing

/-! One metric in three answers: a text, a record and a row of the page. All of them are made of the
metric that is stored, and the text and the record read back as that. So a gauge that is written back
as it was read is still the same. -/

namespace Telemetry

namespace Collector

/-- The path of a metric. -/
def valueTarget (kind : Kind) (name : String) : String :=
  Http.targetOf ["value".toList, kind.name.toList, Http.escape name]

theorem ofTarget?_valueTarget (kind : Kind) {name : String} (hname : name ≠ "") :
    ∃ k n, Endpoint.ofTarget? (valueTarget kind name) = some (.readPath k n) ∧
      Http.segmentText? k = some kind.name ∧ Http.segmentText? n = some name := by
  have hkind : Http.segmentText? kind.name.toList = some kind.name := by
    rcases kind with _ | _ <;> decide
  have hnonempty : Http.escape name ≠ [] := by
    intro hempty
    have htext := Http.segmentText?_escape name
    rw [Http.segmentText?_empty_iff.2 hempty, Option.some.injEq] at htext
    exact hname htext.symm
  have hparts : ∀ segment ∈ ["value".toList, kind.name.toList, Http.escape name],
      ∀ c ∈ segment, c ≠ '/' ∧ c ≠ '?' ∧ c ≠ '#' := by
    intro segment hsegment
    simp only [List.mem_cons, List.not_mem_nil, or_false] at hsegment
    rcases hsegment with rfl | rfl | rfl
    · simp
    · rcases kind with _ | _ <;> simp [Kind.name]
    · exact fun c hc => (Http.plain_of_mem_escape hc).2
  refine ⟨_, _, ?_, hkind, Http.segmentText?_escape name⟩
  rw [Endpoint.ofTarget?, valueTarget, Http.segments?_targetOf (by simp) hparts]
  exact if_pos ⟨rfl, hnonempty⟩

/-- Three requests that read: the first asks for a metric in its path, the second for the same by a
record in its body and the third for the page. -/
structure Sought (c : Frame.Receiver) (kind : Kind) (name : String)
    (inPath inBody page : Http.Request) : Prop where
  byPath : ∃ k n kindText plain, Reaches c inPath (.readPath k n) plain ∧
    Http.segmentText? k = some kindText ∧ Kind.parse kindText = .ok kind ∧
    Http.segmentText? n = some name
  byRecord : ∃ plain record, Reaches c inBody .read plain ∧ plain.size ≤ maxHandledBody ∧
    Record.parse? (Bytes.toList plain) = some record ∧ Kind.parse record.type = .ok kind ∧
    record.id = name
  all : ∃ plain, Reaches c page .index plain
  got : inPath.method = "GET" ∧ page.method = "GET"

/-- Three answers that show a metric: as a text of its value, as a record, and in one row of the page,
with the same text. -/
structure Shows (m : Metric) (text : String) (body : ByteArray)
    (inPath inBody page : Http.Response) : Prop where
  statuses : inPath.status = 200 ∧ inBody.status = 200 ∧ page.status = 200
  holdsText : inPath.Holds text.toUTF8
  value : Value.parse m.kind text = .ok m.value
  holdsRecord : inBody.Holds body
  metric : ∃ record, Record.parse? (Bytes.toList body) = some record ∧ record.toMetric = .ok m
  row : ∃ html rows, page.Holds html.toUTF8 ∧ Page.rows? html = some rows ∧
    rows.filter (·.name = m.name) = [⟨m.name, m.kind.name, text⟩]

/-- A request that writes a gauge in the way it was read: the text in a path, or the record. -/
inductive SendsBack (c : Frame.Receiver) (name text : String) (body : ByteArray) (q : Http.Request) :
    Prop
  | path {k n t : List Char} {kindText : String} {plain : ByteArray}
    (reaches : Reaches c q (.writePath k n t) plain) (hkind : Http.segmentText? k = some kindText)
    (hk : Kind.parse kindText = .ok .gauge) (hname : Http.segmentText? n = some name)
    (htext : Http.segmentText? t = some text)
  | record (reaches : Reaches c q .write body)

section

variable {c : Frame.Receiver} {q : Http.Request} {e : Endpoint} {plain : ByteArray} {r : Repository}

theorem Reaches.reads (h : Reaches c q e plain) (hmethod : q.method ≠ "HEAD") {α : Type}
    {x : Except Error α} {reply : α → Http.Response}
    (hhandle : e.handle r plain = reading r (x >>= fun a => .ok (reply a))) :
    (∀ a, x = .ok a → (respond c r q).2.status = (reply a).status ∧
      (respond c r q).2.Holds (reply a).body) ∧
    ∀ why, x = .error why → (respond c r q).2.status = why.status := by
  rw [h.respond_eq, hhandle]
  constructor
  · rintro a rfl
    have hholds := holds_onItsWay c q (reply a)
    rw [if_neg hmethod] at hholds
    exact ⟨rfl, hholds⟩
  · rintro why rfl
    rfl

theorem readPath_finds {k n : List Char} {kindText name : String} {kind : Kind}
    (hkind : Http.segmentText? k = some kindText) (hk : Kind.parse kindText = .ok kind)
    (hname : Http.segmentText? n = some name) : (Endpoint.readPath k n).handle r plain =
      reading r (stored r name kind >>= fun m => .ok (.plain 200 m.value.text)) := by
  rw [Endpoint.handle, Endpoint.handleReadPath_eq r hkind hname, hk]
  rfl

theorem read_finds {record : Record} {kind : Kind} (hsize : plain.size ≤ maxHandledBody)
    (hrecord : Record.parse? (Bytes.toList plain) = some record)
    (hk : Kind.parse record.type = .ok kind) (hname : record.id ≠ "") : Endpoint.read.handle r plain =
      reading r (stored r record.id kind >>= fun m => .ok (recordResponse m)) := by
  have hquery : readQuery plain = .ok (kind, record.id) :=
    readQuery_eq_ok_iff.2 ⟨record, hrecord, hk, hname, rfl⟩
  rw [Endpoint.handle, Endpoint.handleRead_eq r hsize, hquery]
  rfl

end

section

variable {s : Store} {v : Memory} (watcher : Option Channel) {c : Frame.Receiver}

theorem status_of_stored_eq_error {name : String} {kind : Kind} {why : Error}
    (h : stored ⟨s.holding v, watcher⟩ name kind = .error why) : why.status = 404 := by
  have ends := ends_stored s v watcher name kind
  rcases ends.only why h with hstatus | hstatus
  · exact hstatus
  · exact absurd (ends.faulty.1 ⟨why, h, hstatus⟩) id

theorem status_iff_stored {name : String} {kind : Kind} {status : ℕ}
    (hok : ∀ m, stored ⟨s.holding v, watcher⟩ name kind = .ok m → status = 200)
    (herror : ∀ why, stored ⟨s.holding v, watcher⟩ name kind = .error why → status = why.status) :
    (status = 200 ↔ ∃ m, (s.holding v).metric name = .ok m ∧ m.kind = kind) ∧
      (status = 404 ↔ ¬∃ m, (s.holding v).metric name = .ok m ∧ m.kind = kind) := by
  simp only [← stored_eq_ok_iff (r := ⟨s.holding v, watcher⟩)]
  match hfound : stored ⟨s.holding v, watcher⟩ name kind with
  | .ok m => simp [hok m hfound]
  | .error why => simp [herror why hfound, status_of_stored_eq_error watcher hfound]

/-- A page has one row for a name that is stored. -/
theorem filter_rows (hv : v.Valid) {m : Metric} (hm : (s.holding v).metric m.name = .ok m) :
    ((v.map fun e => (⟨e.1, s.shown e.2⟩ : Metric)).map Page.Row.ofMetric).filter (·.name = m.name) =
      [.ofMetric m] := by
  obtain ⟨x, hx, hshown⟩ := Store.metric_holding_eq_ok_iff.1 hm
  rw [List.map_map, List.filter_map]
  refine (congrArg (List.map _) (SortedMap.filter_eq_of_find? hv.sorted hx)).trans ?_
  show [Page.Row.ofMetric ⟨m.name, s.shown x⟩] = [.ofMetric m]
  rw [← hshown]

theorem status_page {q : Http.Request} {plain : ByteArray} (h : Reaches c q .index plain)
    (hmethod : q.method ≠ "HEAD") (hv : v.Valid) {m : Metric}
    (hm : (s.holding v).metric m.name = .ok m) :
    let response := (respond c ⟨s.holding v, watcher⟩ q).2
    response.status = 200 ∧ ∃ html rows, response.Holds html.toUTF8 ∧ Page.rows? html = some rows ∧
      rows.filter (·.name = m.name) = [.ofMetric m] := by
  set ms : List Metric := v.map fun e => ⟨e.1, s.shown e.2⟩ with hms
  have hhandle : Endpoint.index.handle ⟨s.holding v, watcher⟩ plain = reading ⟨s.holding v, watcher⟩
      (.ok ms >>= fun ms => .ok (.of 200 .html (Page.render ms).toUTF8)) := by
    rw [Endpoint.handle, handleIndex, Store.metrics_holding]
    rfl
  obtain ⟨hstatus, hholds⟩ := (h.reads hmethod hhandle).1 ms rfl
  have hrows := filter_rows hv hm
  rw [← hms] at hrows
  dsimp only [Http.Response.of] at hholds
  intro response
  refine ⟨hstatus, Page.render ms, _, ?_, Page.rows?_render ms, hrows⟩
  exact hholds

theorem SendsBack.asked {m : Metric} (hname : m.name ≠ "") (hk : m.kind = .gauge) {text : String}
    {body : ByteArray} {q : Http.Request} (hvalue : Value.parse m.kind text = .ok m.value)
    (hrecord : ∃ record, Record.parse? (Bytes.toList body) = some record ∧ record.toMetric = .ok m)
    (h : SendsBack c m.name text body q) :
    ∃ e, Endpoint.ofTarget? q.target = some e ∧ e.isWrite ∧ ∀ w, Asked c q e w → w = .set m := by
  rcases h with ⟨reaches, hkind, hgauge, hn, ht⟩ | ⟨reaches⟩
  · refine ⟨_, reaches.endpoint, rfl, ?_⟩
    rintro w ⟨-, plain, -, hasks⟩
    exact hasks.unique (.path hkind hgauge hn hname ht (hk ▸ hvalue))
  · refine ⟨_, reaches.endpoint, rfl, ?_⟩
    rintro w ⟨-, plain, hplain, hasks⟩
    obtain rfl : body = plain := Except.ok.inj (reaches.opened.symm.trans hplain)
    obtain ⟨record, hrecord, hmetric⟩ := hrecord
    cases hasks with
    | record hsize hrecord' hmetric' =>
      exact (Endpoint.Asks.record hsize hrecord' hmetric').unique (.record hsize hrecord hmetric)

/-- A gauge that is written back is what it was, whether the write is done or not. -/
theorem metric_of_asked {m : Metric} (hm : (s.holding v).metric m.name = .ok m)
    (hk : m.kind = .gauge) {q : Http.Request} {e : Endpoint}
    (he : Endpoint.ofTarget? q.target = some e) (hwrite : e.isWrite)
    (hasked : ∀ w, Asked c q e w → w = .set m) :
    (respond c ⟨s.holding v, watcher⟩ q).1.store.metric m.name = .ok m := by
  rcases respond_write c he hwrite s v watcher with
    ⟨w, store, reply, hw, hstore, -, hrespond⟩ | ⟨-, hsame, -⟩
  · obtain rfl := hasked w hw
    rw [hrespond]
    rcases (Store.apply_holding s v (.set m)).outcome with ⟨why, -, hs⟩ | ⟨v', t, hv', hs, rfl⟩
    · cases hs.symm.trans hstore
    · cases hs.symm.trans hstore
      have hfound := Memory.find?_write_gauge hk ((Memory.set_eq_write v m).symm.trans hv')
      obtain ⟨x, -, hx⟩ := Store.metric_holding_eq_ok_iff.1 hm
      have hshown : s.shown m.value = m.value := by
        rw [hx]
        exact s.shown_shown x
      exact Store.metric_holding_eq_ok_iff.2 ⟨m.value, hfound, by rw [hshown]⟩
  · rw [hsame]
    exact hm

end

/-- The three ways to read a metric. The path and the record find it together, just if it is stored
under the kind asked for, and else neither does. The text and the record that they answer with are the
metric as it is stored, and on the page one row has its name and the same text. A gauge that is sent
back as the text or the record is afterwards what it was before. -/
theorem read_endpoints_agree {s : Store} (h : s.Fresh) (events : List Store.Event)
    (watcher : Option Channel) {c : Frame.Receiver} {kind : Kind} {name : String}
    {inPath inBody page : Http.Request} (hname : name ≠ "")
    (sought : Sought c kind name inPath inBody page) :
    let r : Repository := ⟨s.reach events, watcher⟩
    let Found (m : Metric) : Prop := r.store.metric name = .ok m ∧ m.kind = kind
    (∃ k n, Endpoint.ofTarget? (valueTarget kind name) = some (.readPath k n) ∧
      Http.segmentText? k = some kind.name ∧ Http.segmentText? n = some name) ∧
    (∀ q ∈ [inPath, inBody], ((respond c r q).2.status = 200 ↔ ∃ m, Found m) ∧
      ((respond c r q).2.status = 404 ↔ ¬∃ m, Found m)) ∧
    ∀ m, Found m → ∃ text body,
      Shows m text body (respond c r inPath).2 (respond c r inBody).2 (respond c r page).2 ∧
      (kind = .gauge → ∀ q, SendsBack c name text body q →
        (respond c r q).1.store.metric name = .ok m) := by
  obtain ⟨v, hreach, hv⟩ := h.exists_holding events
  rw [hreach]
  obtain ⟨⟨k, n, kindText, plain, hpath, hkind, hk, hn⟩, ⟨plain', record, hbody, hsize, hrecord, hk',
    rfl⟩, ⟨plain'', hpage⟩, hget, hget'⟩ := sought
  intro r Found
  have inPathReads := hpath.reads (by rw [hget]; decide) (readPath_finds (r := r) hkind hk hn)
  have hpost : inBody.method = "POST" := List.mem_singleton.1 hbody.method
  have inBodyReads := hbody.reads (r := r) (by rw [hpost]; decide) (read_finds hsize hrecord hk' hname)
  refine ⟨ofTarget?_valueTarget kind hname, ?_, ?_⟩
  · intro q hq
    simp only [List.mem_cons, List.not_mem_nil, or_false] at hq
    rcases hq with rfl | rfl
    · exact status_iff_stored watcher (fun m hm => (inPathReads.1 m hm).1) inPathReads.2
    · exact status_iff_stored watcher (fun m hm => (inBodyReads.1 m hm).1) inBodyReads.2
  · rintro m ⟨hm, rfl⟩
    obtain ⟨hlisted, hid⟩ := ((Store.lists_holding s hv).single record.id m).1 hm
    have hvalid := (Store.lists_holding s hv).validate hlisted
    have hfound : stored r record.id m.kind = .ok m := stored_eq_ok_iff.2 ⟨hm, rfl⟩
    rw [← hid] at hm hname ⊢
    have hvalue : Value.parse m.kind m.value.text = .ok m.value :=
      Value.parse_text fun x hx => ((Metric.validate_eq_ok_iff.1 hvalid).2 x hx).2
    have hmetric : ∃ record, Record.parse? (Bytes.toList (Bytes.ofList (Record.write (.ofMetric m)))) =
        some record ∧ record.toMetric = .ok m := by
      refine ⟨.ofMetric m, ?_, Record.toMetric_ofMetric hname⟩
      rw [Bytes.toList_ofList]
      exact Record.parse_write (Record.isFinite_ofMetric hvalid)
    refine ⟨m.value.text, Bytes.ofList (Record.write (.ofMetric m)), ?_, ?_⟩
    · obtain ⟨hstatus, htext⟩ := inPathReads.1 m hfound
      obtain ⟨hstatus', hjson⟩ := inBodyReads.1 m hfound
      obtain ⟨hstatus'', hrow⟩ := status_page watcher hpage (by rw [hget']; decide) hv hm
      exact ⟨⟨hstatus, hstatus', hstatus''⟩, htext, hvalue, hjson, hmetric, hrow⟩
    · intro hgauge q hback
      obtain ⟨e, he, hwrite, hasked⟩ := hback.asked hname hgauge hvalue hmetric
      exact metric_of_asked watcher hm hgauge he hwrite hasked

/-- A name with markup in it, and a zero with a sign. -/
theorem negative_zero_is_read_alike :
    let m : Metric := ⟨"<b>&", .gauge (.ofMagnitude true 0)⟩
    let c : Frame.Receiver := ⟨none, none⟩
    let r : Repository := ⟨(Store.memory .empty).reach [.call (.set m)], none⟩
    let inPath : Http.Request := ⟨"GET", "/value/Gauge/%3Cb%3E&", [], ByteArray.empty⟩
    let inBody : Http.Request := ⟨"POST", "/value", [],
      "\x7b\"type\":\" gauge\",\"id\":\"<b>&\"\x7d".toUTF8⟩
    let page : Http.Request := ⟨"GET", "/", [], ByteArray.empty⟩
    let back : Http.Request := ⟨"POST", "/update/gauge/%3Cb%3E&/-0", [], ByteArray.empty⟩
    (∃ body, Shows m "-0" body (respond c r inPath).2 (respond c r inBody).2 (respond c r page).2) ∧
      (respond c r back).1.store.metric m.name = .ok m := by
  intro m c r inPath inBody page back
  have sought : Sought c .gauge m.name inPath inBody page := by
    refine ⟨⟨"Gauge".toList, "%3Cb%3E&".toList, "Gauge", _, ⟨rfl, by decide, by decide⟩, by decide,
      by decide, by decide⟩, ⟨inBody.body, ⟨m.name, " gauge", none, none⟩, ⟨rfl, by decide, by decide⟩,
      by decide, by decide, by decide, rfl⟩, ⟨_, ⟨rfl, by decide, by decide⟩⟩, rfl, rfl⟩
  obtain ⟨-, -, found⟩ := read_endpoints_agree .memory [.call (.set m)] none (by decide) sought
  obtain ⟨text, body, shows, kept⟩ := found m ⟨by decide, rfl⟩
  have hzero : (respond c r inPath).2.Holds "-0".toUTF8 := by
    rw [Http.Response.Holds, if_neg (by decide +kernel)]
    decide +kernel
  obtain rfl : text = "-0" := String.toByteArray_inj.1 (shows.holdsText.unique hzero)
  have sendsBack : SendsBack c m.name "-0" body back := by
    refine .path (k := "gauge".toList) (n := "%3Cb%3E&".toList) (t := "-0".toList)
      ⟨rfl, by decide, by decide⟩ rfl ?_ ?_ ?_
    all_goals decide
  exact ⟨⟨body, shows⟩, kept rfl back sendsBack⟩

/-- A question that is too long is refused, whether there is such a metric or not. -/
theorem long_questions_are_refused :
    let c : Frame.Receiver := ⟨none, none⟩
    let empty : Repository := .make (.memory .empty)
    let r : Repository := ⟨(Store.memory .empty).reach [.call (.set ⟨"a", .gauge .zero⟩)], none⟩
    let known : Http.Request := ⟨"POST", "/value", [], Bytes.ofList (zeroRecord 8388608)⟩
    let name := Agent.letters 8388609
    let unknown : Http.Request := ⟨"POST", "/value", [],
      Bytes.ofList (Record.write ⟨name, "gauge", none, none⟩)⟩
    (Record.parse? (Bytes.toList known.body) = some ⟨"a", "gauge", some .zero, none⟩ ∧
      (respond c r ⟨"GET", "/value/gauge/a", [], ByteArray.empty⟩).2.status = 200 ∧
      (respond c r known).2.status = 400) ∧
    Record.parse? (Bytes.toList unknown.body) = some ⟨name, "gauge", none, none⟩ ∧
      empty.store.metric name = .error (.notFound name) ∧ (respond c empty unknown).2.status = 400 := by
  intro c empty r known name unknown
  have refused (r : Repository) (q : Http.Request) (hlong : maxBody < q.body.size) :
      (respond c r q).2.status = 400 := by
    have hunread : unframe c q = .error .unreadable := if_pos hlong
    rw [respond_unopened hunread]
    rfl
  refine ⟨⟨?_, by decide +kernel, refused r known ?_⟩, ?_, rfl, refused empty unknown ?_⟩
  · rw [Bytes.toList_ofList]
    exact parse?_zeroRecord 8388608
  · rw [Bytes.size_ofList]
    exact length_zeroRecord 8388608
  · rw [Bytes.toList_ofList]
    exact Record.parse_write nofun
  · rw [Bytes.size_ofList, Agent.length_write_letters]
    exact Nat.lt_add_right _ (by decide)

end Collector
end Telemetry
