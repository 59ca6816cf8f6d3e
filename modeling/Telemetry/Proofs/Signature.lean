import Mathlib.Order.Nat
import Telemetry.Proofs.Quoted
import Telemetry.Proofs.Cuts
import Telemetry.Proofs.Bytes
import Telemetry.Frame.Signature
import Telemetry.Text.Utf8

/-! Signatures that fit. What is written in base64 reads back, and nothing else is read as the same, so
that a body has one signature. It holds no white space and nothing but visible characters, so that it
is the same after it has been a header. -/

namespace Telemetry

namespace Base64

theorem value?_digit {n : ℕ} (h : n < 64) : value? (digit n) = some n := by
  revert n
  decide +kernel

theorem digit_ne_pad {n : ℕ} (h : n < 64) : digit n ≠ '=' := by
  revert n
  decide +kernel

theorem decodeFrom_encode (done bs : List UInt8) :
    decodeFrom done (encode bs) = some (done.reverse ++ bs) := by
  have byte (b : UInt8) {n : ℕ} (h : n = b.toNat) : UInt8.ofNat n = b := by
    rw [h, UInt8.ofNat_toNat]
  induction bs using encode.induct generalizing done with
  | case1 => simp [encode, decodeFrom]
  | case2 a =>
    have ha := a.toNat_lt
    have hp := value?_digit (show a.toNat / 4 < 64 by omega)
    have hq := value?_digit (show a.toNat % 4 * 16 < 64 by omega)
    have hrest : a.toNat % 4 * 16 % 16 = 0 := by omega
    have hfirst : UInt8.ofNat (a.toNat / 4 * 4 + a.toNat % 4 * 16 / 16) = a := byte a (by omega)
    rw [encode, decodeFrom.eq_2]
    simp only [hp, hq, Option.bind_eq_bind, Option.bind_some, if_pos hrest, hfirst,
      List.reverse_cons]
  | case3 a b =>
    have ha := a.toNat_lt
    have hb := b.toNat_lt
    have hp := value?_digit (show a.toNat / 4 < 64 by omega)
    have hq := value?_digit (show a.toNat % 4 * 16 + b.toNat / 16 < 64 by omega)
    have hlast : b.toNat % 16 * 4 < 64 := by omega
    have hrest : b.toNat % 16 * 4 % 4 = 0 := by omega
    have hfirst : UInt8.ofNat (a.toNat / 4 * 4 + (a.toNat % 4 * 16 + b.toNat / 16) / 16) = a :=
      byte a (by omega)
    have hsecond : UInt8.ofNat ((a.toNat % 4 * 16 + b.toNat / 16) % 16 * 16 +
        b.toNat % 16 * 4 / 4) = b := byte b (by omega)
    rw [encode, decodeFrom.eq_3 _ _ _ _ fun h => absurd h (digit_ne_pad hlast)]
    simp only [hp, hq, value?_digit hlast, Option.bind_eq_bind, Option.bind_some, if_pos hrest,
      hfirst, hsecond, List.reverse_cons, List.append_assoc, List.singleton_append]
  | case4 a b c rest ih =>
    have ha := a.toNat_lt
    have hb := b.toNat_lt
    have hc := c.toNat_lt
    have hp := value?_digit (show a.toNat / 4 < 64 by omega)
    have hq := value?_digit (show a.toNat % 4 * 16 + b.toNat / 16 < 64 by omega)
    have hr := value?_digit (show b.toNat % 16 * 4 + c.toNat / 64 < 64 by omega)
    have hlast : c.toNat % 64 < 64 := by omega
    have hpad := digit_ne_pad hlast
    have hfirst : UInt8.ofNat (a.toNat / 4 * 4 + (a.toNat % 4 * 16 + b.toNat / 16) / 16) = a :=
      byte a (by omega)
    have hsecond : UInt8.ofNat ((a.toNat % 4 * 16 + b.toNat / 16) % 16 * 16 +
        (b.toNat % 16 * 4 + c.toNat / 64) / 4) = b := byte b (by omega)
    have hthird : UInt8.ofNat ((b.toNat % 16 * 4 + c.toNat / 64) % 4 * 64 + c.toNat % 64) = c :=
      byte c (by omega)
    -- the last digit of the group is no padding, so this is not the end
    rw [encode, decodeFrom.eq_4 _ _ _ _ _ _ (fun _ h _ => absurd h hpad) fun h _ => absurd h hpad]
    simp only [hp, hq, hr, value?_digit hlast, Option.bind_eq_bind, Option.bind_some, hfirst,
      hsecond, hthird, ih, List.reverse_cons, List.append_assoc, List.cons_append,
      List.nil_append]

theorem decode?_encode (bs : List UInt8) : decode? (encode bs) = some bs :=
  decodeFrom_encode [] bs

theorem digit_of_value? {c : Char} {n : ℕ} (h : value? c = some n) : n < 64 ∧ digit n = c := by
  obtain ⟨hn, hc, -⟩ := List.findIdx?_eq_some_iff_getElem.1 h
  refine ⟨hn, ?_⟩
  rw [digit, List.getD_eq_getElem _ _ hn]
  exact eq_of_beq hc

/-- Only what is written for some bytes is read as them. -/
theorem eq_encode_of_decodeFrom {done bs : List UInt8} {cs : List Char}
    (h : decodeFrom done cs = some bs) : ∃ rest, bs = done.reverse ++ rest ∧ cs = encode rest := by
  have byte {n : ℕ} (hn : n < 256) : (UInt8.ofNat n).toNat = n := by
    rw [UInt8.toNat_ofNat', Nat.mod_eq_of_lt hn]
  induction done, cs using decodeFrom.induct generalizing bs with
  | case1 done => exact ⟨[], by simpa [decodeFrom, eq_comm] using h, rfl⟩
  | case2 done p q =>
    simp only [decodeFrom, Option.bind_eq_bind, Option.bind_eq_some_iff] at h
    obtain ⟨p, hp, q, hq, h⟩ := h
    split_ifs at h with hrest
    obtain ⟨hp, rfl⟩ := digit_of_value? hp
    obtain ⟨hq, rfl⟩ := digit_of_value? hq
    have ha := byte (show p * 4 + q / 16 < 256 by omega)
    have hfirst : (p * 4 + q / 16) / 4 = p := by omega
    have hsecond : (p * 4 + q / 16) % 4 * 16 = q := by omega
    refine ⟨[UInt8.ofNat (p * 4 + q / 16)], by simpa using (Option.some.inj h).symm, ?_⟩
    rw [encode, ha, hfirst, hsecond]
  | case3 done p q r hpad =>
    rw [decodeFrom.eq_3 _ _ _ _ hpad] at h
    simp only [Option.bind_eq_bind, Option.bind_eq_some_iff] at h
    obtain ⟨p, hp, q, hq, r, hr, h⟩ := h
    split_ifs at h with hrest
    obtain ⟨hp, rfl⟩ := digit_of_value? hp
    obtain ⟨hq, rfl⟩ := digit_of_value? hq
    obtain ⟨hr, rfl⟩ := digit_of_value? hr
    have ha := byte (show p * 4 + q / 16 < 256 by omega)
    have hb := byte (show q % 16 * 16 + r / 4 < 256 by omega)
    have hfirst : (p * 4 + q / 16) / 4 = p := by omega
    have hsecond : (p * 4 + q / 16) % 4 * 16 + (q % 16 * 16 + r / 4) / 16 = q := by omega
    have hthird : (q % 16 * 16 + r / 4) % 16 * 4 = r := by omega
    refine ⟨[UInt8.ofNat (p * 4 + q / 16), UInt8.ofNat (q % 16 * 16 + r / 4)],
      by simpa using (Option.some.inj h).symm, ?_⟩
    rw [encode, ha, hb, hfirst, hsecond, hthird]
  | case4 done p q r s cs hpads hpad ih =>
    rw [decodeFrom.eq_4 _ _ _ _ _ _ hpads hpad] at h
    simp only [Option.bind_eq_bind, Option.bind_eq_some_iff] at h
    obtain ⟨p, hp, q, hq, r, hr, s, hs, h⟩ := h
    obtain ⟨hp, rfl⟩ := digit_of_value? hp
    obtain ⟨hq, rfl⟩ := digit_of_value? hq
    obtain ⟨hr, rfl⟩ := digit_of_value? hr
    obtain ⟨hs, rfl⟩ := digit_of_value? hs
    obtain ⟨rest, rfl, rfl⟩ := ih p q r s h
    have ha := byte (show p * 4 + q / 16 < 256 by omega)
    have hb := byte (show q % 16 * 16 + r / 4 < 256 by omega)
    have hc := byte (show r % 4 * 64 + s < 256 by omega)
    have hfirst : (p * 4 + q / 16) / 4 = p := by omega
    have hsecond : (p * 4 + q / 16) % 4 * 16 + (q % 16 * 16 + r / 4) / 16 = q := by omega
    have hthird : (q % 16 * 16 + r / 4) % 16 * 4 + (r % 4 * 64 + s) / 64 = r := by omega
    have hfourth : (r % 4 * 64 + s) % 64 = s := by omega
    refine ⟨UInt8.ofNat (p * 4 + q / 16) :: UInt8.ofNat (q % 16 * 16 + r / 4) ::
      UInt8.ofNat (r % 4 * 64 + s) :: rest, by simp, ?_⟩
    rw [encode, ha, hb, hc, hfirst, hsecond, hthird, hfourth]
  | case5 cs done hnil hpads hpad hgroup => simp [decodeFrom] at h

theorem decode?_eq_some_iff {cs : List Char} {bs : List UInt8} :
    decode? cs = some bs ↔ cs = encode bs := by
  constructor
  · intro h
    obtain ⟨rest, rfl, hcs⟩ := eq_encode_of_decodeFrom h
    exact hcs
  · rintro rfl
    exact decode?_encode bs

/-- A character that can stand in base64. -/
def IsText (c : Char) : Prop := c = '=' ∨ ∃ n < 64, c = digit n

theorem isText_of_mem_encode {bs : List UInt8} : ∀ c ∈ encode bs, IsText c := by
  have hdigit {n : ℕ} (h : n < 64) : IsText (digit n) := .inr ⟨n, h, rfl⟩
  have hpad : IsText '=' := .inl rfl
  induction bs using encode.induct with
  | case1 => simp [encode]
  | case2 a =>
    have ha := a.toNat_lt
    simp only [encode, List.forall_mem_cons]
    exact ⟨hdigit (by omega), hdigit (by omega), hpad, hpad, by simp⟩
  | case3 a b =>
    have ha := a.toNat_lt
    have hb := b.toNat_lt
    simp only [encode, List.forall_mem_cons]
    exact ⟨hdigit (by omega), hdigit (by omega), hdigit (by omega), hpad, by simp⟩
  | case4 a b c rest ih =>
    have ha := a.toNat_lt
    have hb := b.toNat_lt
    have hc := c.toNat_lt
    simp only [encode, List.forall_mem_cons]
    exact ⟨hdigit (by omega), hdigit (by omega), hdigit (by omega), hdigit (by omega), ih⟩

theorem IsText.isBlank {c : Char} (h : IsText c) : Text.isBlank c = false := by
  have hdigits : ∀ n < 64, Text.isBlank (digit n) = false := by decide +kernel
  rcases h with rfl | ⟨n, hn, rfl⟩
  · rfl
  · exact hdigits n hn

theorem IsText.toNat_lt {c : Char} (h : IsText c) : c.toNat < 128 := by
  have hdigits : ∀ n < 64, (digit n).toNat < 128 := by decide +kernel
  rcases h with rfl | ⟨n, hn, rfl⟩
  · decide
  · exact hdigits n hn

end Base64

namespace Text

theorem lossyFrom_utf8EncodeChar {cs : List Char} (h : ∀ c ∈ cs, c.toNat < 128) :
    lossyFrom 0 (cs.flatMap String.utf8EncodeChar) = cs := by
  induction cs with
  | nil => rfl
  | cons c cs ih =>
    have hc := h c (by simp)
    have hencode := Json.utf8EncodeChar_ascii hc
    have hchar (bs : List UInt8) : charOf? 1 (c.toUInt8 :: bs) = some c := by
      have hbytes : [c.toUInt8] = Json.utf8 (String.ofList [c]) := by
        simp [Json.utf8_eq_flatMap, hencode]
      rw [charOf?, List.take_succ_cons, List.take_zero, hbytes, Bytes.ofList, Json.fromUTF8_utf8]
      simp
    have hfirst (bs : List UInt8) : firstChar? (c.toUInt8 :: bs) = some (c, 1) := by
      simp [firstChar?, hchar]
    rw [List.flatMap_cons, hencode, List.singleton_append, lossyFrom]
    simp only [hfirst]
    rw [ih fun d hd => h d (by simp [hd])]

theorem lossy_toUTF8 {s : String} (h : ∀ c ∈ s.toList, c.toNat < 128) : lossy s.toUTF8 = s := by
  have hbytes : Bytes.toList s.toUTF8 = s.toList.flatMap String.utf8EncodeChar :=
    Json.utf8_eq_flatMap s
  rw [lossy, hbytes, lossyFrom_utf8EncodeChar h, String.ofList_toList]

theorem lossy_ne_empty {b : ByteArray} (h : b.size ≠ 0) : lossy b ≠ "" := by
  intro hempty
  have hnil : lossyFrom 0 (Bytes.toList b) = [] := by simpa [lossy] using hempty
  rw [Bytes.size_eq_length] at h
  cases hbytes : Bytes.toList b with
  | nil => simp [hbytes] at h
  | cons byte bytes =>
    rw [hbytes, lossyFrom] at hnil
    split at hnil <;> simp at hnil

end Text

namespace Frame

variable (key body : ByteArray)

theorem isText_sign : ∀ c ∈ (sign key body).toList, Base64.IsText c := by
  rw [sign, String.toList_ofList]
  exact Base64.isText_of_mem_encode

theorem verify_sign : verify key body (sign key body) = .ok () := by
  rw [verify, if_pos]
  rw [Text.trim_eq_self fun c hc => (isText_sign key body c hc).isBlank, sign, String.toList_ofList,
    Base64.decode?_encode]

/-- A signature fits just if it is the one that the body has, white space around it aside. -/
theorem verify_eq_ok_iff {s : String} :
    verify key body s = .ok () ↔ Text.trimmed s = sign key body := by
  have htext : Text.trimmed s = sign key body ↔
      Text.trim s.toList = Base64.encode (Hmac.digest key body) := by
    rw [Text.trimmed, sign, String.ofList_inj]
  rw [htext, ← Base64.decode?_eq_some_iff, verify]
  split_ifs with h <;> simp [h]

theorem verify_eq_error_iff {s : String} {why : Error} :
    verify key body s = .error why ↔
      Text.trimmed s ≠ sign key body ∧ why = .signatureMismatch := by
  rw [ne_eq, ← verify_eq_ok_iff, verify]
  split_ifs <;> simp [eq_comm]

theorem length_digest (m : ByteArray) : (Sha256.digest m).length = 32 := by
  simp [Sha256.digest, Sha256.State.words]

theorem sign_ne_empty : sign key body ≠ "" := by
  have hlength : (Hmac.digest key body).length = 32 := length_digest _
  have hdecode := Base64.decode?_encode (Hmac.digest key body)
  intro h
  have hnil : Base64.encode (Hmac.digest key body) = [] := by
    rw [sign] at h
    simpa using congrArg String.toList h
  rw [hnil, Base64.decode?, Base64.decodeFrom] at hdecode
  rw [← Option.some.inj hdecode] at hlength
  simp at hlength

theorem lossy_sign : Text.lossy (sign key body).toUTF8 = sign key body :=
  Text.lossy_toUTF8 fun c hc => (isText_sign key body c hc).toNat_lt

end Frame
end Telemetry
