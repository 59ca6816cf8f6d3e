import Telemetry.Proofs.Exchange
import Telemetry.Proofs.Signature

/-! The signature as a gate. A collector with a key looks at the signature of a request before it looks
at anything else but the length of the body. One text gets a body through, and every other one gets
the same refusal, whatever the request asks for, whatever is stored and however the body would have
been opened. What the refusal still shows is the method: a response to HEAD has no body, and a path
that is known names its methods to all others. -/

namespace Telemetry

namespace Frame.Receiver

variable {c : Receiver} {body : ByteArray}

theorem decrypt_ne_mismatch : c.decrypt body ≠ .error .signatureMismatch := by
  intro h
  unfold decrypt at h
  split at h
  · cases h
  · next key _ =>
    rcases bind_eq_error_iff.1 h with h | ⟨_, -, h⟩
    · unfold Rsa.PrivateKey.decrypt at h
      split_ifs at h
      · cases h
      · split at h <;> cases h
    · cases h

theorem decompress_ne_mismatch : decompress body ≠ .error .signatureMismatch := by
  unfold decompress
  split <;> simp

/-- Nothing that comes after the signature was checked fails like that. -/
theorem unframe_eq_mismatch_iff {signature : Option String} {gzipped : Bool} :
    c.unframe body signature gzipped = .error .signatureMismatch ↔
      c.checkSignature body signature = .error .signatureMismatch := by
  constructor
  · intro h
    rcases bind_eq_error_iff.1 h with h | ⟨_, -, h⟩
    · exact h
    · split at h
      · cases h
      · rcases bind_eq_error_iff.1 h with h | ⟨plain, -, h⟩
        · exact absurd h decrypt_ne_mismatch
        · split at h
          · exact absurd h decompress_ne_mismatch
          · cases h
  · intro h
    rw [unframe, h]
    rfl

end Frame.Receiver

namespace Collector

variable {q : Http.Request}

theorem signatureOf_header {h : ByteArray} (hheader : q.header? signatureHeader = some h)
    (hne : h.size ≠ 0) : signatureOf q = some (Text.lossy h) := by
  have htext : (Text.lossy h).isEmpty = false := by simpa using Text.lossy_ne_empty hne
  rw [signatureOf, hheader, Option.map_some, Option.filter_some, if_pos (by simp [htext])]

theorem allowed_ne_none_iff :
    allowed q ≠ none ↔ ∃ e, Endpoint.ofTarget? q.target = some e ∧ q.method ∉ e.methods := by
  unfold allowed
  cases Endpoint.ofTarget? q.target with
  | none => simp
  | some e => simp

/-- One text is the signature of a body, and a request with any other is refused in one way. With the
right one the request gets past the check; with another it gets a response that neither the state of
the repository nor the private key nor anything in the request has a say in, except that a response
to HEAD has no body and that the methods of a known path are named to a method that is none of them.
The repository and its watcher are left alone. -/
theorem signature_guards_every_request {key : ByteArray} (hkey : key.size ≠ 0)
    (privateKey : Option Rsa.PrivateKey) (r : Repository) {q : Http.Request}
    (hbody : q.body.size ≤ maxBody) {h : ByteArray}
    (hheader : q.header? signatureHeader = some h) (hne : h.size ≠ 0) :
    let c := Frame.Receiver.make (some key) privateKey
    (Hmac.digest key q.body).length = 32 ∧
    (unframe c q ≠ .error (.frame .signatureMismatch) ↔
      Text.trimmed (Text.lossy h) = Frame.sign key q.body) ∧
    (Text.trimmed (Text.lossy h) ≠ Frame.sign key q.body →
      respond c r q = (r,
        { status := 400
          contentType := some .plain
          body := if q.method = "HEAD" then ByteArray.empty
            else "HashSHA256 does not match the body".toUTF8
          allow := allowed q
          signature := none
          gzipped := false })) ∧
    (allowed q ≠ none ↔
      ∃ e, Endpoint.ofTarget? q.target = some e ∧ q.method ∉ e.methods) := by
  intro c
  have hchecked : c.key = some key := by
    simp [c, Frame.Receiver.make, Frame.usableKey, Option.filter_some, hkey]
  have hrefused : unframe c q = .error (.frame .signatureMismatch) ↔
      Text.trimmed (Text.lossy h) ≠ Frame.sign key q.body := by
    have hverify : c.checkSignature q.body (some (Text.lossy h)) =
        Frame.verify key q.body (Text.lossy h) := by
      simp only [Frame.Receiver.checkSignature, hchecked]
    have hopened : unframe c q = .error (.frame .signatureMismatch) ↔
        c.unframe q.body (some (Text.lossy h)) (namesGzip q "content-encoding") =
          .error .signatureMismatch := by
      rw [unframe, if_neg (Nat.not_lt.2 hbody), signatureOf_header hheader hne]
      split <;> simp [*]
    rw [hopened, Frame.Receiver.unframe_eq_mismatch_iff, hverify, Frame.verify_eq_error_iff]
    simp
  refine ⟨Frame.length_digest _, by rw [ne_eq, hrefused, not_not], fun hwrong => ?_,
    allowed_ne_none_iff⟩
  exact respond_unopened (hrefused.2 hwrong) r

/-- A collector with a private key refuses a body that it could not even open, on a path that is not
known, and lets the one signature past the check. -/
theorem wrong_signature_is_refused :
    let key := "secret".toUTF8
    let k : Rsa.PrivateKey := ⟨⟨4951760154835678088235319297, 17⟩, 1763291712928118903⟩
    let c := Frame.Receiver.make (some key) (some k)
    let r : Repository := ⟨.memory [("hits", .counter 2)], some ⟨1, 0⟩⟩
    let q (signature : String) : Http.Request :=
      ⟨"POST", "/nope", [("content-encoding", "gzip".toUTF8), ("HASHsha256", signature.toUTF8)],
        "a".toUTF8⟩
    respond c r (q "x") = (r, .plain 400 "HashSHA256 does not match the body") ∧
      unframe c (q (Frame.sign key "a".toUTF8)) ≠ .error (.frame .signatureMismatch) := by
  intro key k c r q
  have hkey : key.size ≠ 0 := by decide
  have hbody (signature : String) : (q signature).body.size ≤ maxBody :=
    show "a".toUTF8.size ≤ maxBody by decide
  have hheader (signature : String) : (q signature).header? signatureHeader =
      some signature.toUTF8 := by
    have hother : (Text.fold "content-encoding".toList == Text.fold signatureHeader.toList) = false :=
      by decide
    have hself : (Text.fold "HASHsha256".toList == Text.fold signatureHeader.toList) = true := by decide
    simp only [Http.Request.header?, q, List.find?_cons, hother, hself, Option.map_some]
  have hwrong : Text.trimmed (Text.lossy "x".toUTF8) ≠ Frame.sign key "a".toUTF8 := by
    rw [ne_eq, ← Frame.verify_eq_ok_iff]
    decide
  have hright : Text.trimmed (Text.lossy (Frame.sign key "a".toUTF8).toUTF8) =
      Frame.sign key "a".toUTF8 := by
    rw [Frame.lossy_sign]
    exact (Frame.verify_eq_ok_iff key "a".toUTF8).1 (Frame.verify_sign key "a".toUTF8)
  have hnonempty : (Frame.sign key "a".toUTF8).toUTF8.size ≠ 0 := by
    intro hzero
    refine Frame.sign_ne_empty key "a".toUTF8 ?_
    rw [← Frame.lossy_sign, ByteArray.size_eq_zero_iff.1 hzero]
    rfl
  obtain ⟨-, -, refused, -⟩ :=
    signature_guards_every_request hkey (some k) r (hbody _) (hheader "x") (by decide)
  obtain ⟨-, passes, -⟩ :=
    signature_guards_every_request hkey (some k) r (hbody _) (hheader _) hnonempty
  have hallowed : allowed (q "x") = none := by decide
  rw [hallowed] at refused
  exact ⟨refused hwrong, passes.2 hright⟩

/-- The same refusal of two requests that differ in their path, of which one names methods. -/
theorem refusal_names_methods :
    let c := Frame.Receiver.make (some "secret".toUTF8) none
    let r : Repository := .make (.memory .empty)
    let q (target : String) : Http.Request :=
      ⟨"POST", target, [("HashSHA256", "x".toUTF8)], "a".toUTF8⟩
    Text.trimmed (Text.lossy "x".toUTF8) ≠ Frame.sign "secret".toUTF8 "a".toUTF8 ∧
      (respond c r (q "/update")).2.status = 400 ∧ (respond c r (q "/ping")).2.status = 400 ∧
      (respond c r (q "/update")).2 ≠ (respond c r (q "/ping")).2 := by
  intro c r q
  refine ⟨?_, by decide, by decide, fun hsame => ?_⟩
  · rw [ne_eq, ← Frame.verify_eq_ok_iff]
    decide
  · exact absurd (congrArg Http.Response.allow hsame) (by decide)

end Collector
end Telemetry
