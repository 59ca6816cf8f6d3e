import Telemetry.Proofs.Transparency

/-! Responses on their way out. Whether a body is compressed is decided by the client and by what the
body is, whether it is signed by the collector, the status and what the body is; the signature is of
the body before its compression. So a client that accepts gzip gets the answer of one that does not,
under the same signature. -/

namespace Telemetry.Collector

/-- Two requests that differ in nothing but what the client accepts. -/
structure SameButAccepting (q q' : Http.Request) : Prop where
  method : q.method = q'.method
  target : q.target = q'.target
  body : q.body = q'.body
  headers : ∀ name, Text.fold name.toList ≠ Text.fold "accept-encoding".toList →
    q.header? name = q'.header? name

/-- The answer to a request before it is framed. -/
def unframedAnswer (c : Frame.Receiver) (r : Repository) (q : Http.Request) :
    Repository × Http.Response :=
  match unframe c q with
  | .error why => (r, why.response)
  | .ok plain => answer q r plain

/-- A response and the same one for a client that accepts gzip. -/
structure Compresses (plain packed : Http.Response) : Prop where
  status : packed.status = plain.status
  contentType : packed.contentType = plain.contentType
  allow : packed.allow = plain.allow
  signature : packed.signature = plain.signature
  unpacked : plain.gzipped = false
  gzipped : packed.gzipped = true ↔ plain.contentType = some .json ∨ plain.contentType = some .html
  inflates : packed.gzipped = true → ∀ limit, plain.body.size ≤ limit →
    Gzip.decompress limit packed.body = .ok plain.body
  same : packed.gzipped = false → packed.body = plain.body

/-- A response that is signed just if it is a success in JSON and there is a key, by its body. -/
structure Signs (key : Option ByteArray) (response : Http.Response) : Prop where
  signed : response.signature ≠ none ↔ (∃ k ∈ key, k.size ≠ 0) ∧ response.isSuccess = true ∧
    response.contentType = some .json
  verifies : ∀ s ∈ response.signature, ∀ k ∈ key, Frame.verify k response.body s = .ok ()

section

variable {c : Frame.Receiver} {q q' : Http.Request}

theorem SameButAccepting.unframe_eq (h : SameButAccepting q q') : unframe c q = unframe c q' := by
  have hsignature : signatureOf q = signatureOf q' := by
    rw [signatureOf, h.headers signatureHeader (by decide), signatureOf]
  have hgzip : namesGzip q "content-encoding" = namesGzip q' "content-encoding" := by
    simp only [namesGzip, Http.Request.headerText?, h.headers "content-encoding" (by decide)]
  simp only [unframe, h.body, hsignature, hgzip]

theorem SameButAccepting.unframedAnswer_eq (h : SameButAccepting q q') (r : Repository) :
    unframedAnswer c r q = unframedAnswer c r q' := by
  unfold unframedAnswer
  rw [h.unframe_eq]
  cases unframe c q' with
  | error why => rfl
  | ok plain => simp only [answer, h.method, h.target]

theorem frame_plain (c : Frame.Receiver) (accepts : Bool) (status : ℕ) (text : String) :
    frame c accepts (.plain status text) = .plain status text := by
  cases accepts <;> rfl

/-- Every answer is framed, one for a frame that could not be opened as well. -/
theorem respond_eq_framed (c : Frame.Receiver) (r : Repository) (q : Http.Request) :
    respond c r q = ((unframedAnswer c r q).1, onItsWay c q (unframedAnswer c r q).2) := by
  unfold unframedAnswer
  cases h : unframe c q with
  | error why =>
    have htext : frame c (namesGzip q "accept-encoding") why.response = why.response :=
      frame_plain c _ why.status why.message
    simp only [respond_unopened h, onItsWay, htext]
  | ok plain => exact respond_opened h r

theorem compresses_onItsWay (c : Frame.Receiver) (h : SameButAccepting q q') (hmethod : q.method ≠ "HEAD")
    (hplain : namesGzip q "accept-encoding" = false) (hgzip : namesGzip q' "accept-encoding" = true)
    (response : Http.Response) : Compresses (onItsWay c q response) (onItsWay c q' response) := by
  have hmethod' : q'.method ≠ "HEAD" := h.method ▸ hmethod
  have hallowed : allowed q' = allowed q := by
    simp only [allowed, h.method, h.target]
  have hkind : (decide (response.contentType = some .json) ||
      decide (response.contentType = some .html)) = true ↔
        response.contentType = some .json ∨ response.contentType = some .html := by
    simp
  simp only [onItsWay, finish, frame, hplain, hgzip, hallowed, if_neg hmethod, if_neg hmethod',
    Bool.false_and, Bool.true_and, Bool.false_eq_true, if_false]
  refine ⟨rfl, rfl, rfl, rfl, rfl, hkind, ?_, ?_⟩
  · intro hpacked limit hlimit
    rw [if_pos hpacked, Gzip.decompress_compress, if_pos hlimit]
  · intro hpacked
    rw [if_neg (Bool.eq_false_iff.1 hpacked)]

theorem signs_onItsWay (key : Option ByteArray) (privateKey : Option Rsa.PrivateKey)
    (hmethod : q.method ≠ "HEAD") (hplain : namesGzip q "accept-encoding" = false)
    (response : Http.Response) : Signs key (onItsWay (.make key privateKey) q response) := by
  have hbody : (onItsWay (.make key privateKey) q response).body = response.body := by
    simp [onItsWay, finish, frame, hplain, hmethod]
  have hsignature : (onItsWay (.make key privateKey) q response).signature =
      if response.contentType = some .json ∧ response.isSuccess then
        (Frame.usableKey key).map fun k => Frame.sign k response.body else none := by
    simp [onItsWay, finish, frame, Frame.Receiver.responseSignature, Frame.Receiver.make]
  have husable : Frame.usableKey key ≠ none ↔ ∃ k ∈ key, k.size ≠ 0 := by
    cases key with
    | none => simp [Frame.usableKey]
    | some k => simp [Frame.usableKey, Option.filter_some]
  constructor
  · rw [hsignature, ← husable]
    show _ ↔ _ ∧ response.isSuccess = true ∧ response.contentType = some .json
    split_ifs with hjson
    · simp [hjson.1, hjson.2]
    · simp only [ne_eq, not_true_eq_false, false_iff, not_and]
      intro _ hsuccess htype
      exact hjson ⟨htype, hsuccess⟩
  · intro s hs k hk
    rw [hsignature] at hs
    split_ifs at hs
    · obtain ⟨k', hk', rfl⟩ := Option.map_eq_some_iff.1 hs
      obtain rfl : k' = k := Option.some.inj ((Option.filter_eq_some_iff.1 hk').1.symm.trans hk)
      rw [hbody, Frame.verify_sign]
    · cases hs

end

/-- The frame of a response makes no difference. Of two requests that differ in nothing but in whether
the client accepts gzip, both leave the same repository and get the same answer, under the same
signature if it is signed. It is compressed for the one that accepts that if it is JSON or HTML, and
then inflates to the body for the other one; and it is signed, by its body before the compression, if
there is a key and it is a success in JSON. -/
theorem response_framing_is_transparent (key : Option ByteArray) (privateKey : Option Rsa.PrivateKey)
    (r : Repository) {q q' : Http.Request} (h : SameButAccepting q q') (hmethod : q.method ≠ "HEAD")
    (hplain : namesGzip q "accept-encoding" = false) (hgzip : namesGzip q' "accept-encoding" = true) :
    let c := Frame.Receiver.make key privateKey
    (respond c r q').1 = (respond c r q).1 ∧
      Compresses (respond c r q).2 (respond c r q').2 ∧ Signs key (respond c r q).2 := by
  intro c
  rw [respond_eq_framed c r q, respond_eq_framed c r q', ← h.unframedAnswer_eq]
  exact ⟨rfl, compresses_onItsWay c h hmethod hplain hgzip _,
    signs_onItsWay key privateKey hmethod hplain _⟩

/-- A record that is asked for by two clients, of which one accepts gzip. -/
theorem compressed_record_is_signed :
    let key := "secret".toUTF8
    let c := Frame.Receiver.make (some key) none
    let r : Repository := .make (.memory [("hits", .counter 2)])
    let body := "\x7b\"id\":\"hits\",\"type\":\"counter\"\x7d".toUTF8
    let record := "\x7b\"id\":\"hits\",\"type\":\"counter\",\"delta\":2\x7d".toUTF8
    let q' : Http.Request := ⟨"POST", "/value", [("Accept-Encoding", "br, GZIP".toUTF8)], body⟩
    (respond c r q').2.status = 200 ∧ (respond c r q').2.gzipped = true ∧
      Gzip.decompress 100 (respond c r q').2.body = .ok record ∧
      ∃ s, (respond c r q').2.signature = some s ∧ Frame.verify key record s = .ok () := by
  intro key c r body record q'
  let q : Http.Request := ⟨"POST", "/value", [], body⟩
  have hsame : SameButAccepting q q' := by
    refine ⟨rfl, rfl, rfl, ?_⟩
    intro name hname
    have hother : (Text.fold "Accept-Encoding".toList == Text.fold name.toList) = false := by
      simpa using fun h => hname h.symm
    simp only [Http.Request.header?, q, q', List.find?_cons, hother, List.find?_nil]
  have hgzip : namesGzip q' "accept-encoding" = true := by decide +kernel
  obtain ⟨-, hpacked, hsigned⟩ :=
    response_framing_is_transparent (some key) none r hsame (by decide) rfl hgzip
  have hstatus : (respond c r q).2.status = 200 := by decide +kernel
  have hjson : (respond c r q).2.contentType = some .json := by decide +kernel
  have hrecord : (respond c r q).2.body = record := by
    have hbytes : (respond c r q).2.body.data = record.data := by decide +kernel
    exact ByteArray.ext hbytes
  have hcompressed := hpacked.gzipped.2 (Or.inl hjson)
  have hsuccess : (respond c r q).2.isSuccess = true := by
    simp [Http.Response.isSuccess, hstatus]
  obtain ⟨s, hs⟩ := Option.ne_none_iff_exists'.1
    (hsigned.signed.2 ⟨⟨key, rfl, by decide⟩, hsuccess, hjson⟩)
  refine ⟨hpacked.status.trans hstatus, hcompressed, ?_, s, hpacked.signature.trans hs, ?_⟩
  · rw [← hrecord]
    exact hpacked.inflates hcompressed 100 (hrecord ▸ by decide)
  · rw [← hrecord]
    exact hsigned.verifies s hs key rfl

end Telemetry.Collector
