import Telemetry.Proofs.Delivery

/-! Frames make no difference. What stands behind the frame of a request is answered by its method,
its target and its plain body alone, and the frame of the response changes neither its status nor the
body in it. So the same plain body is answered in the same way in whatever frame it comes, and with no
frame at all. -/

namespace Telemetry

/-- The body in a response, inflated if it was compressed on its way. -/
def Http.Response.Holds (response : Http.Response) (plain : ByteArray) : Prop :=
  if response.gzipped ∧ response.body.size ≠ 0 then
    ∃ limit, Gzip.decompress limit response.body = .ok plain
  else response.body = plain

theorem Http.Response.Holds.unique {response : Http.Response} {plain plain' : ByteArray}
    (h : response.Holds plain) (h' : response.Holds plain') : plain = plain' := by
  unfold Holds at h h'
  split_ifs at h h' with hpacked
  · obtain ⟨limit, hlimit⟩ := h
    obtain ⟨limit', hlimit'⟩ := h'
    have hsame := (Gzip.decompress_of_ok hlimit).2 limit'
    rw [hlimit'] at hsame
    split_ifs at hsame
    exact (Except.ok.inj hsame).symm
  · exact h.symm.trans h'

namespace Collector

/-- Two answers that differ in nothing but the frame of the response. -/
structure SameAnswer (a a' : Repository × Http.Response) : Prop where
  repository : a.1 = a'.1
  status : a.2.status = a'.2.status
  contentType : a.2.contentType = a'.2.contentType
  allow : a.2.allow = a'.2.allow
  body : ∃ plain, a.2.Holds plain ∧ a'.2.Holds plain

/-- A request that carries a plain body in one of the frames for the receiver. -/
structure Carries (c : Frame.Receiver) (q : Http.Request) (plain : ByteArray) : Prop where
  frames : c.Frames (namesGzip q "content-encoding") plain ⟨q.body, signatureOf q⟩
  fits : q.body.size ≤ maxBody

section

variable {c c' : Frame.Receiver} {q q' : Http.Request} {plain : ByteArray}

theorem unframe_of_fits (h : q.body.size ≤ maxBody) (hopened :
    c.unframe q.body (signatureOf q) (namesGzip q "content-encoding") = .ok plain) :
    unframe c q = .ok plain := by
  rw [unframe, if_neg (Nat.not_lt.2 h), hopened]

theorem Carries.unframe_eq (h : Carries c q plain) (hc : ∀ k ∈ c.privateKey, k.Inverts)
    (hpos : 0 < plain.size) (hsize : plain.size ≤ Gzip.maxInflated) : unframe c q = .ok plain := by
  refine unframe_of_fits h.fits ?_
  rw [h.frames.unframe_eq hc (Or.inr hpos), if_neg fun hlong => absurd hsize (Nat.not_le.2 hlong.2)]

/-- Without keys, a body that is said to be no gzip member is its own frame. -/
theorem carries_self (h : namesGzip q "content-encoding" = false) (hsize : q.body.size ≤ maxBody) :
    Carries (.make none none) q q.body := by
  refine ⟨⟨⟨q.body, ?_, rfl⟩, fun key hkey => nomatch hkey⟩, hsize⟩
  rw [h]
  rfl

theorem unframe_empty (hbody : q.body = ByteArray.empty) (hsignature : signatureOf q = none) :
    unframe c q = .ok ByteArray.empty := by
  refine unframe_of_fits (by simp [hbody]) ?_
  have hunsigned : c.checkSignature q.body none = .ok () := by
    unfold Frame.Receiver.checkSignature
    split <;> simp_all
  rw [hsignature, Frame.Receiver.unframe, hunsigned, hbody]
  rfl

theorem holds_onItsWay (c : Frame.Receiver) (q : Http.Request) (response : Http.Response) :
    (onItsWay c q response).Holds
      (if q.method = "HEAD" then ByteArray.empty else response.body) := by
  unfold onItsWay finish frame Http.Response.Holds
  by_cases hhead : q.method = "HEAD"
  · simp [hhead]
  · simp only [if_neg hhead]
    cases hgzip : namesGzip q "accept-encoding" &&
        (decide (response.contentType = some .json) || decide (response.contentType = some .html)) with
    | true =>
      rw [if_pos rfl, if_pos ⟨rfl, (Gzip.size_compress_pos response.body).ne'⟩]
      exact ⟨response.body.size, Gzip.decompress_compress_self response.body⟩
    | false => simp

theorem respond_same (hmethod : q.method = q'.method) (htarget : q.target = q'.target)
    (h : unframe c q = .ok plain) (h' : unframe c' q' = .ok plain) (r : Repository) :
    SameAnswer (respond c r q) (respond c' r q') := by
  have hanswer : answer q r plain = answer q' r plain := by
    simp only [answer, hmethod, htarget]
  have hallowed : allowed q = allowed q' := by
    simp only [allowed, hmethod, htarget]
  rw [respond_opened h, respond_opened h', ← hanswer]
  refine ⟨rfl, rfl, rfl, hallowed, _, holds_onItsWay c q _, ?_⟩
  rw [hmethod]
  exact holds_onItsWay c' q' _

end

/-- The frame of a request makes no difference. A plain body that a handler may look at gets the same
answer from a collector without keys and, in any frame for the keys of another one, from that; and so
does an empty body that is not signed, whatever it is said to be. -/
theorem framing_is_transparent (r : Repository) :
    (∀ (c : Frame.Receiver) (q q' : Http.Request), (∀ k ∈ c.privateKey, k.Inverts) →
      q.method = q'.method → q.target = q'.target →
      0 < q.body.size → q.body.size ≤ maxHandledBody → namesGzip q "content-encoding" = false →
      Carries c q' q.body →
      SameAnswer (respond (.make none none) r q) (respond c r q')) ∧
    ∀ (c c' : Frame.Receiver) (q q' : Http.Request), q.method = q'.method → q.target = q'.target →
      q.body.size = 0 → q'.body.size = 0 → signatureOf q = none → signatureOf q' = none →
      SameAnswer (respond c r q) (respond c' r q') := by
  have hhandled : maxHandledBody ≤ maxBody := by decide
  have hinflated : maxHandledBody ≤ Gzip.maxInflated := by decide
  constructor
  · intro c q q' hc hmethod htarget hpos hsize hplain hframed
    have hopened := (carries_self hplain (hsize.trans hhandled)).unframe_eq
      (fun k hk => nomatch hk) hpos (hsize.trans hinflated)
    have hopened' := hframed.unframe_eq hc hpos (hsize.trans hinflated)
    exact respond_same hmethod htarget hopened hopened' r
  · intro c c' q q' hmethod htarget hempty hempty' hsignature hsignature'
    have hopened := unframe_empty (c := c) (ByteArray.size_eq_zero_iff.1 hempty) hsignature
    have hopened' := unframe_empty (c := c') (ByteArray.size_eq_zero_iff.1 hempty') hsignature'
    exact respond_same hmethod htarget hopened hopened' r

/-- A record in a gzip member with a name, sealed byte by byte and signed. -/
theorem foreign_frame_is_transparent :
    let k : Rsa.PrivateKey := ⟨⟨4951760154835678088235319297, 17⟩, 1763291712928118903⟩
    let c : Frame.Receiver := .make (some "secret".toUTF8) (some k)
    let r : Repository := .make (.memory [("hits", .counter 2)])
    let plain := "[\x7b\"id\":\"hits\",\"type\":\"counter\",\"delta\":3\x7d]".toUTF8
    let packed : List UInt8 := [31, 139, 8, 8, 0, 0, 0, 0, 0, 3, 98, 0, 139, 174, 86, 202, 76, 81, 178,
      82, 202, 200, 44, 41, 86, 210, 81, 42, 169, 44, 72, 5, 242, 146, 243, 75, 243, 74, 82, 139, 128,
      2, 41, 169, 57, 37, 137, 74, 86, 198, 181, 177, 0, 3, 212, 141, 216, 42, 0, 0, 0]
    let body := Bytes.ofList (k.publicKey.sealBlocks (fun _ j => if j = 0 then 7 else 255) 0
      (packed.map fun b => [b]))
    let q' := Agent.request ⟨body, some (Frame.sign "secret".toUTF8 body)⟩
    SameAnswer (respond (.make none none) r ⟨"POST", "/updates", [], plain⟩) (respond c r q') ∧
      (respond c r q').2.status = 200 ∧
      (respond c r q').1.store.metric "hits" = .ok ⟨"hits", .counter 5⟩ := by
  intro k c r plain packed body q'
  obtain ⟨transparent, -⟩ := framing_is_transparent r
  have hpacked : Frame.Packs true plain (Bytes.ofList packed) :=
    ⟨plain.size, by decide +kernel⟩
  have hsealed : c.Seals (Bytes.ofList packed) body := by
    refine ⟨_, packed.map fun b => [b], ?_, ?_, ?_, (Bytes.toList_ofList _).symm⟩
    · intro i j
      split_ifs <;> decide
    · intro m hm
      obtain ⟨b, -, rfl⟩ := List.mem_map.1 hm
      exact show 12 ≤ k.publicKey.size by decide
    · rw [Bytes.toList_ofList]
      rfl
  have hsize : q'.body.size ≤ maxBody := by
    show body.size ≤ maxBody
    rw [Bytes.size_ofList, Rsa.length_sealBlocks]
    decide
  have hsignature : signatureOf q' = some (Frame.sign "secret".toUTF8 body) :=
    Agent.signatureOf_request (show _ = (some "secret".toUTF8).map (Frame.sign · body) from rfl)
  have hframed : Carries c q' plain := by
    refine ⟨⟨⟨Bytes.ofList packed, ?_, hsealed⟩, ?_⟩, hsize⟩
    · rw [Agent.namesGzip_request]
      exact hpacked
    · rintro key ⟨⟩ s hs
      rw [hsignature] at hs
      exact (Option.some.inj hs).symm
  have same := transparent c ⟨"POST", "/updates", [], plain⟩ q'
    (fun _ h => Option.some.inj h ▸ Frame.isPair_mersenne.inverts) rfl rfl (by decide) (by decide) rfl
    hframed
  refine ⟨same, same.status ▸ ?_, same.repository ▸ ?_⟩
  · decide +kernel
  · decide +kernel

end Collector
end Telemetry
