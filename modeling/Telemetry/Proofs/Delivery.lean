import Telemetry.Proofs.Batch
import Telemetry.Proofs.BatchText
import Telemetry.Proofs.Exchange
import Telemetry.Proofs.Framing
import Telemetry.Proofs.Retry
import Telemetry.Agent.Delivery

/-! A report on its way to the collector. The request that carries a frame is taken apart into that
frame again, and what is framed is the text of the batch; so a report is applied as a whole if its
text is no longer than a handler may read, and is refused otherwise, whatever its frame has shrunk
to. -/

namespace Telemetry

namespace Store

open Storage (Error)

theorem validate_of_set {s s' : Store} {m : Metric} (h : s.set m = .ok s') :
    m.validate = .ok () := by
  cases s with
  | memory values =>
    simp only [set, Memory.set, Memory.stage, Staged.write] at h
    cases hm : m.validate with
    | ok u => rfl
    | error why => simp [hm, bind, Except.bind, ofMemory] at h
  | database path content =>
    obtain ⟨d, hd, -⟩ := map_eq_ok_iff.1 h
    obtain ⟨⟨⟩, hvalid, -⟩ := bind_eq_ok_iff.1 hd
    unfold Database.valid at hvalid
    split at hvalid
    · assumption
    · cases hvalid

theorem validate_of_setAll {s s' : Store} {batch : List Metric} (h : s.setAll batch = .ok s') :
    ∀ m ∈ batch, m.validate = .ok () := by
  rw [setAll_eq_foldlM] at h
  induction batch generalizing s with
  | nil => exact fun m hm => absurd hm List.not_mem_nil
  | cons b batch ih =>
    obtain ⟨s₁, hb, hrest⟩ := bind_eq_ok_iff.1 h
    intro m hm
    rcases List.mem_cons.1 hm with rfl | hm
    · exact validate_of_set hb
    · exact ih hrest m hm

end Store

namespace Agent

theorem namesGzip_request (framed : Frame.Framed) :
    Collector.namesGzip (request framed) "content-encoding" = true := by
  have hheader : (request framed).header? "content-encoding" = some "application/gzip".toUTF8 := rfl
  have htext : (request framed).headerText? "content-encoding" =
      some "application/gzip" := by
    rw [Http.Request.headerText?, hheader]
    rfl
  rw [Collector.namesGzip, htext]
  decide

theorem header?_request (framed : Frame.Framed) :
    (request framed).header? Collector.signatureHeader = framed.signature.map String.toUTF8 := by
  have htype : (Text.fold "content-type".toList ==
      Text.fold Collector.signatureHeader.toList) = false := by decide
  have hencoding : (Text.fold "content-encoding".toList ==
      Text.fold Collector.signatureHeader.toList) = false := by decide
  have hself : (Text.fold "HashSHA256".toList ==
      Text.fold Collector.signatureHeader.toList) = true := by decide
  cases h : framed.signature with
  | none =>
    simp only [Http.Request.header?, request, h, Option.map_none, Option.toList_none,
      List.append_nil, List.find?_cons, List.find?_nil, htype, hencoding]
  | some signature =>
    simp only [Http.Request.header?, request, h, Option.map_some, Option.toList_some,
      List.cons_append, List.nil_append, List.find?_cons, htype, hencoding, hself]

theorem signatureOf_request {framed : Frame.Framed} {key : Option ByteArray}
    (h : framed.signature = key.map (Frame.sign · framed.body)) :
    Collector.signatureOf (request framed) = framed.signature := by
  obtain ⟨body, signature⟩ := framed
  obtain rfl : signature = key.map (Frame.sign · body) := h
  cases key with
  | none => rfl
  | some key =>
    have hne : (Frame.sign key body).isEmpty = false := by simpa using Frame.sign_ne_empty key body
    simp only [Option.map_some, Collector.signatureOf, header?_request, Frame.lossy_sign]
    rw [Option.filter_some, if_pos (by simp [hne])]

theorem ofTarget?_request (framed : Frame.Framed) :
    Collector.Endpoint.ofTarget? (request framed).target = some .writeBatch := by
  have htarget : Collector.Endpoint.ofTarget? "/updates" = some .writeBatch := by decide
  exact htarget

end Agent

namespace Collector

/-- A collector at the other end of the wire. -/
def receive (c : Frame.Receiver) (q : Http.Request) : StateM Repository (Except Agent.Fault ℕ) :=
  fun r => (.ok (respond c r q).2.status, (respond c r q).1)

/-- The frame of a request is opened unless there is too much of it, before or behind the
compression. -/
theorem unframe_request (keys : Frame.Keys) {noise : Rsa.Noise} (hnoise : ∀ i j, noise i j ≠ 0)
    (plain : ByteArray) :
    ∃ framed, keys.sender.frame noise plain = .ok framed ∧
      unframe keys.receiver (Agent.request framed) =
        if maxBody < framed.body.size then .error .unreadable
        else if plain.size ≤ Gzip.maxInflated then .ok plain
        else .error (.frame (.tooLarge Gzip.maxInflated)) := by
  obtain ⟨framed, hframed, hsignature, hplain⟩ :=
    Frame.unframe_frame keys.key keys.inverts keys.large hnoise plain
  refine ⟨framed, hframed, ?_⟩
  have hbody : (Agent.request framed).body = framed.body := rfl
  rw [unframe, Agent.signatureOf_request hsignature, Agent.namesGzip_request, hbody,
    Frame.Keys.receiver, hplain]
  split_ifs <;> rfl

/-- The text of an accepted batch is applied as a whole, or it is too long to be looked at. -/
theorem handleWriteBatch_encode {r r' : Repository} {batch : List Metric}
    (h : r.setAll batch = .ok r') :
    ∃ reply, reply.status = 200 ∧ handleWriteBatch r (Bytes.ofList (Batch.encode batch)) =
      if maxHandledBody < (Batch.encode batch).length then (r, .error .tooLong)
      else (r', .ok reply) := by
  obtain ⟨s, hs, -⟩ := bind_eq_ok_iff.1 h
  have hread : readBatch (Bytes.ofList (Batch.encode batch)) = .ok batch := by
    rw [readBatch, Bytes.toList_ofList, Batch.decode_encode (Store.validate_of_setAll hs)]
  refine ⟨.of 200 .json (Bytes.ofList (Json.writeText (toString batch.length ++
    " metrics received"))), rfl, ?_⟩
  rw [handleWriteBatch, limited, Bytes.size_ofList]
  split_ifs with hlong
  · rfl
  · simp only [bind, Except.bind, hread, h, accepted]
    rfl

theorem respond_request (keys : Frame.Keys) {noise : Rsa.Noise} (hnoise : ∀ i j, noise i j ≠ 0)
    {r r' : Repository} {batch : List Metric} (h : r.setAll batch = .ok r') :
    ∃ framed, keys.sender.frameMetrics noise batch = .ok framed ∧
      ((respond keys.receiver r (Agent.request framed)).2.status,
        (respond keys.receiver r (Agent.request framed)).1) =
          if framed.body.size ≤ maxBody ∧ (Batch.encode batch).length ≤ maxHandledBody then (200, r')
          else if framed.body.size ≤ maxBody ∧ (Batch.encode batch).length ≤ Gzip.maxInflated then
            (413, r)
          else (400, r) := by
  obtain ⟨framed, hframed, hplain⟩ :=
    unframe_request keys hnoise (Bytes.ofList (Batch.encode batch))
  obtain ⟨reply, hstatus, hhandle⟩ := handleWriteBatch_encode h
  refine ⟨framed, hframed, ?_⟩
  have hlimits : maxHandledBody < Gzip.maxInflated := by decide
  rw [Bytes.size_ofList] at hplain
  by_cases hbody : framed.body.size ≤ maxBody
  · rw [if_neg (Nat.not_lt.2 hbody)] at hplain
    by_cases hinflated : (Batch.encode batch).length ≤ Gzip.maxInflated
    · rw [if_pos hinflated] at hplain
      have hrespond := respond_eq hplain (Agent.ofTarget?_request framed) (.head _) r
      rw [hrespond, status_onItsWay, Endpoint.handle, hhandle]
      by_cases hlong : maxHandledBody < (Batch.encode batch).length
      · rw [if_pos hlong, if_neg (by omega), if_pos ⟨hbody, hinflated⟩]
        rfl
      · rw [if_neg hlong, if_pos ⟨hbody, Nat.not_lt.1 hlong⟩]
        exact congrArg (·, r') hstatus
    · rw [if_neg hinflated] at hplain
      rw [respond_unopened hplain, if_neg (by omega), if_neg (by omega)]
      rfl
  · rw [if_pos (Nat.not_le.1 hbody)] at hplain
    rw [respond_unopened hplain, if_neg (by omega), if_neg (by omega)]
    rfl

end Collector

namespace Agent

theorem run_send {t : Transport} {noise : Rsa.Noise} {c : Frame.Receiver} {batch : List Metric}
    {framed : Frame.Framed} (h : t.sender.frameMetrics noise batch = .ok framed) (r : Repository) :
    (t.send noise (Collector.receive c) batch).run r =
      (.ok (Collector.respond c r (request framed)).2.status,
        (Collector.respond c r (request framed)).1) := by
  have hanswer : (Collector.receive c (request framed)).run r =
      (.ok (Collector.respond c r (request framed)).2.status,
        (Collector.respond c r (request framed)).1) := rfl
  have hrun := Retry.run_of_final t.policy worthRetrying
    (fun _ => Collector.receive c (request framed)) hanswer rfl
  simp only [Transport.send, h, Transport.deliver, StateT.run_bind, hrun]
  rfl

/-- A report that the collector would accept is applied as a whole if the text of the batch is no
longer than a handler may read. A longer one leaves the collector as it was, although the frame is
read and opened up to limits that are far higher. -/
theorem reports_are_delivered_if_handled (keys : Frame.Keys) {noise : Rsa.Noise}
    (hnoise : ∀ i j, noise i j ≠ 0) (policy : Retry.Policy) {r r' : Repository}
    {batch : List Metric} (h : r.setAll batch = .ok r') :
    ∃ framed, keys.sender.frameMetrics noise batch = .ok framed ∧
      ((⟨keys.sender, policy⟩ : Transport).send noise (Collector.receive keys.receiver) batch).run r =
        if framed.body.size ≤ Collector.maxBody ∧
            (Batch.encode batch).length ≤ Collector.maxHandledBody then (.ok 200, r')
        else if framed.body.size ≤ Collector.maxBody ∧
            (Batch.encode batch).length ≤ Gzip.maxInflated then (.ok 413, r)
        else (.ok 400, r) := by
  obtain ⟨framed, hframed, hresponse⟩ := Collector.respond_request keys hnoise h
  refine ⟨framed, hframed, ?_⟩
  rw [run_send hframed r]
  split_ifs at hresponse ⊢ <;>
    exact congrArg (fun p : ℕ × Repository => (Except.ok p.1, p.2)) hresponse

def letters (n : ℕ) : String := String.ofList (List.replicate n 'a')

theorem length_writeText_letters (n : ℕ) :
    (Json.writeText (letters n)).length = n + (Json.writeText "").length := by
  have hbytes : (Json.utf8 (letters n)).flatMap Json.escape = List.replicate n 97 := by
    rw [Json.utf8_eq_flatMap, letters, String.toList_ofList]
    induction n with
    | zero => rfl
    | succ n ih => rw [List.replicate_succ, List.flatMap_cons, List.flatMap_append, ih]; rfl
  simp only [Json.writeText, hbytes, List.length_append, List.length_cons, List.length_replicate,
    show (Json.utf8 "").flatMap Json.escape = [] from rfl, List.length_nil]

theorem length_write_letters (n : ℕ) (type : String) (value : Option Real64) (delta : Option Int64) :
    (Record.write ⟨letters n, type, value, delta⟩).length =
      n + (Record.write ⟨"", type, value, delta⟩).length := by
  simp only [Record.write, List.length_append, length_writeText_letters]
  omega

theorem length_encode_letters (n : ℕ) :
    (Batch.encode [⟨letters n, .counter 1⟩]).length = n + 38 := by
  have hbatch (r : Record) : (Batch.write [r]).length = r.write.length + 2 := by
    rw [Batch.write, List.map_singleton, Batch.writeList, Text.intercalate_cons]
    simp
  have hempty : (Record.ofMetric ⟨"", .counter 1⟩).write.length = 36 := by decide
  rw [Batch.encode, List.map_singleton, hbatch]
  exact congrArg (· + 2) ((length_write_letters n _ _ _).trans (congrArg (n + ·) hempty))

theorem setAll_letters {n : ℕ} (hn : n ≠ 0) :
    (Repository.make (.memory .empty)).setAll [⟨letters n, .counter 1⟩] =
      .ok (.make (.memory [(letters n, .counter 1)])) := by
  have hname : letters n ≠ "" := by
    intro h
    have := congrArg String.toList h
    simp [letters, hn] at this
  have hvalid : (⟨letters n, .counter 1⟩ : Metric).validate = .ok () :=
    Metric.validate_eq_ok_iff.2 ⟨hname, fun _ h => nomatch h⟩
  simp only [Repository.setAll, Store.setAll, Memory.setAll, Memory.stage, List.foldlM_cons,
    List.foldlM_nil, Staged.write, hvalid]
  rfl

theorem body_of_frame {keys : Frame.Keys} (hpair : keys.pair = none) {noise : Rsa.Noise}
    {batch : List Metric} {framed : Frame.Framed}
    (h : keys.sender.frameMetrics noise batch = .ok framed) :
    framed.body = Gzip.compress (Bytes.ofList (Batch.encode batch)) := by
  simp only [Frame.Keys.sender, hpair, Option.map_none] at h
  exact congrArg Frame.Framed.body (Except.ok.inj h).symm

/-- One counter with a name of two million letters, signed. Its frame is read and opened, and then it
is too long. -/
theorem long_report_is_refused :
    ∃ keys : Frame.Keys, keys.key = some "secret".toUTF8 ∧ keys.pair = none ∧
      (∃ r, (Repository.make (.memory .empty)).setAll [⟨letters 2100000, .counter 1⟩] = .ok r) ∧
      ((⟨keys.sender, .standard⟩ : Transport).send (fun _ _ => 1)
        (Collector.receive keys.receiver) [⟨letters 2100000, .counter 1⟩]).run
          (.make (.memory .empty)) = (.ok 413, .make (.memory .empty)) := by
  let keys : Frame.Keys := ⟨some "secret".toUTF8, none, nofun, nofun⟩
  have hbatch := setAll_letters (n := 2100000) (by decide)
  have hone : (1 : UInt8) ≠ 0 := by decide
  have hnoise : ∀ i j, (fun _ _ => 1 : Rsa.Noise) i j ≠ 0 := fun _ _ => hone
  obtain ⟨framed, hframed, hsend⟩ := reports_are_delivered_if_handled keys hnoise .standard hbatch
  have hlength := length_encode_letters 2100000
  have hlong : Collector.maxHandledBody < (Batch.encode [⟨letters 2100000, .counter 1⟩]).length :=
    hlength ▸ by decide
  have hinflated : (Batch.encode [⟨letters 2100000, .counter 1⟩]).length ≤ Gzip.maxInflated :=
    hlength ▸ by decide
  have hbody : framed.body.size ≤ Collector.maxBody := by
    have hpacked := Gzip.size_compress_le
      (Bytes.ofList (Batch.encode [⟨letters 2100000, .counter 1⟩]))
    rw [← body_of_frame rfl hframed, Bytes.size_ofList, hlength] at hpacked
    exact hpacked.trans (by decide)
  rw [if_neg fun h => absurd h.2 (Nat.not_le.2 hlong), if_pos ⟨hbody, hinflated⟩] at hsend
  exact ⟨keys, rfl, rfl, ⟨_, hbatch⟩, hsend⟩

end Agent
end Telemetry
