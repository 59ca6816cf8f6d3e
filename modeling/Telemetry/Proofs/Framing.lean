import Mathlib.NumberTheory.LucasLehmer
import Telemetry.Proofs.Cipher
import Telemetry.Proofs.Signature
import Telemetry.Proofs.Packing
import Telemetry.Frame.Basic

/-! Frames opened. A receiver gets the plain body back from every frame that there is for it: whatever
gzip member the body was packed into, however that was cut and padded to be sealed, and with the
signature of the frame or none. What a sender with the matching keys frames is one of these, so it
comes back unless it is longer than a receiver lets it become. -/

namespace Telemetry

namespace Gzip

theorem size_pos_of_decompress {limit : ℕ} {data plain : ByteArray}
    (h : decompress limit data = .ok plain) : 0 < data.size := by
  refine Nat.pos_of_ne_zero fun hzero => ?_
  have hnone : header? data = none := by simp [header?, hzero]
  simp [decompress, hnone] at h

theorem size_compress_pos (plain : ByteArray) : 0 < (compress plain).size :=
  size_pos_of_decompress (decompress_compress_self plain)

end Gzip

namespace Frame

/-- What a plain body is before it is sealed: itself, or any gzip member that it is inflated from. -/
def Packs (gzipped : Bool) (plain packed : ByteArray) : Prop :=
  match gzipped with
  | true => ∃ limit, Gzip.decompress limit packed = .ok plain
  | false => packed = plain

theorem packs_compress (plain : ByteArray) : Packs true plain (Gzip.compress plain) :=
  ⟨_, Gzip.decompress_compress_self plain⟩

namespace Receiver

/-- The bodies that a packed one can be sealed to; it stays as it is without a key for that. -/
def Seals (c : Receiver) (packed body : ByteArray) : Prop :=
  match c.privateKey with
  | none => body = packed
  | some k => k.publicKey.Seals (Bytes.toList packed) (Bytes.toList body)

/-- The frames that there are for a plain body. A signature may be missing. -/
structure Frames (c : Receiver) (gzipped : Bool) (plain : ByteArray) (framed : Framed) : Prop where
  body : ∃ packed, Packs gzipped plain packed ∧ c.Seals packed framed.body
  signature : ∀ key ∈ c.key, ∀ s ∈ framed.signature, s = sign key framed.body

variable {c : Receiver} {gzipped : Bool} {plain packed body : ByteArray} {framed : Framed}

theorem Seals.size_pos (h : c.Seals packed body) (hpacked : 0 < packed.size) : 0 < body.size := by
  unfold Seals at h
  split at h
  · exact h ▸ hpacked
  · rw [Bytes.size_eq_length] at hpacked ⊢
    exact List.length_pos_of_ne_nil (h.ne_nil (List.ne_nil_of_length_pos hpacked))

theorem Seals.decrypt_eq (hc : ∀ k ∈ c.privateKey, k.Inverts) (h : c.Seals packed body) :
    c.decrypt body = .ok packed := by
  unfold Seals at h
  split at h
  · next hnone => simp only [Receiver.decrypt, hnone, h]
  · next k hsome =>
    simp only [Receiver.decrypt, hsome, h.decrypt_eq (hc k hsome)]
    exact congrArg Except.ok (Bytes.ofList_toList packed)

theorem Frames.checkSignature_eq (h : c.Frames gzipped plain framed) :
    c.checkSignature framed.body framed.signature = .ok () := by
  unfold Receiver.checkSignature
  split
  · next key s hkey hs => rw [h.signature key hkey s hs, verify_sign]
  · rfl

theorem Frames.unframe_eq (hc : ∀ k ∈ c.privateKey, k.Inverts) (h : c.Frames gzipped plain framed)
    (hpacks : gzipped ∨ 0 < plain.size) :
    c.unframe framed.body framed.signature gzipped =
      if gzipped ∧ Gzip.maxInflated < plain.size then .error (.tooLarge Gzip.maxInflated)
      else .ok plain := by
  obtain ⟨packed, hpacked, hsealed⟩ := h.body
  have hpos : 0 < packed.size := by
    cases gzipped with
    | true =>
      obtain ⟨limit, hlimit⟩ := hpacked
      exact Gzip.size_pos_of_decompress hlimit
    | false => exact (show packed = plain from hpacked) ▸ hpacks.resolve_left Bool.false_ne_true
  rw [Receiver.unframe, h.checkSignature_eq]
  simp only [bind, Except.bind, if_neg (hsealed.size_pos hpos).ne', hsealed.decrypt_eq hc]
  cases gzipped with
  | true =>
    obtain ⟨limit, hlimit⟩ := hpacked
    rw [decompress, (Gzip.decompress_of_ok hlimit).2]
    by_cases hfits : plain.size ≤ Gzip.maxInflated
    · simp [hfits, Nat.not_lt.2 hfits]
    · simp [hfits, Nat.lt_of_not_le hfits]
  | false => simp [show packed = plain from hpacked]

end Receiver

section

variable (key : Option ByteArray) {pair : Option Rsa.PrivateKey} {noise : Rsa.Noise}

theorem exists_encrypt (hlarge : ∀ k ∈ pair, Rsa.overhead < k.size) (hnoise : ∀ i j, noise i j ≠ 0)
    (packed : ByteArray) :
    ∃ body, (Sender.make key (pair.map Rsa.PrivateKey.publicKey)).encrypt noise packed = .ok body ∧
      (Receiver.make key pair).Seals packed body := by
  cases pair with
  | none => exact ⟨packed, rfl, rfl⟩
  | some k =>
    obtain ⟨sealed, hsealed, hseals⟩ :=
      Rsa.PublicKey.exists_encrypt (hlarge k rfl) hnoise (Bytes.toList packed)
    refine ⟨Bytes.ofList sealed, ?_, ?_⟩
    · simp only [Sender.make, Sender.encrypt, Option.map_some, hsealed]
      rfl
    · simp only [Receiver.Seals, Receiver.make, Bytes.toList_ofList]
      exact hseals

theorem exists_frame (hlarge : ∀ k ∈ pair, Rsa.overhead < k.size) (hnoise : ∀ i j, noise i j ≠ 0)
    (plain : ByteArray) :
    ∃ framed, (Sender.make key (pair.map Rsa.PrivateKey.publicKey)).frame noise plain = .ok framed ∧
      framed.signature = (usableKey key).map (sign · framed.body) ∧
      (Receiver.make key pair).Frames true plain framed := by
  obtain ⟨body, hbody, hsealed⟩ := exists_encrypt key hlarge hnoise (Gzip.compress plain)
  refine ⟨⟨body, (usableKey key).map (sign · body)⟩, ?_, rfl, ⟨_, packs_compress plain, hsealed⟩, ?_⟩
  · rw [Sender.frame, hbody]
    rfl
  · rintro k hk s hs
    rw [show usableKey key = some k from hk] at hs
    exact (Option.some.inj hs).symm

/-- Framing never fails with such a key, and the frame holds the plain bytes as far as they may
inflate. -/
theorem unframe_frame (hpair : ∀ k ∈ pair, k.Inverts) (hlarge : ∀ k ∈ pair, Rsa.overhead < k.size)
    (hnoise : ∀ i j, noise i j ≠ 0) (plain : ByteArray) :
    ∃ framed, (Sender.make key (pair.map Rsa.PrivateKey.publicKey)).frame noise plain = .ok framed ∧
      framed.signature = (usableKey key).map (sign · framed.body) ∧
      (Receiver.make key pair).unframe framed.body framed.signature true =
        if plain.size ≤ Gzip.maxInflated then .ok plain else .error (.tooLarge Gzip.maxInflated) := by
  obtain ⟨framed, hframed, hsignature, hframes⟩ := exists_frame key hlarge hnoise plain
  refine ⟨framed, hframed, hsignature, ?_⟩
  rw [hframes.unframe_eq hpair (Or.inl rfl)]
  by_cases hfits : plain.size ≤ Gzip.maxInflated
  · rw [if_pos hfits, if_neg fun h => absurd h.2 (Nat.not_lt.2 hfits)]
  · rw [if_neg hfits, if_pos ⟨rfl, Nat.lt_of_not_le hfits⟩]

end

/-- The keys of a sender and a receiver that belong together. A key pair is large enough to seal
with. -/
structure Keys where
  key : Option ByteArray
  pair : Option Rsa.PrivateKey
  isPair : ∀ k ∈ pair, k.IsPair
  large : ∀ k ∈ pair, Rsa.overhead < k.size

namespace Keys

variable (keys : Keys)

def sender : Sender := .make keys.key (keys.pair.map Rsa.PrivateKey.publicKey)

def receiver : Receiver := .make keys.key keys.pair

theorem inverts : ∀ k ∈ keys.pair, k.Inverts := fun k hk => (keys.isPair k hk).inverts

end Keys

theorem isSome_usableKey {key : Option ByteArray} :
    (usableKey key).isSome ↔ ∃ k ∈ key, k.size ≠ 0 := by
  simp [usableKey, Option.isSome_filter, Option.any_eq_true]

theorem encrypt_too_small {key : Rsa.PublicKey} (h : key.size ≤ Rsa.overhead) (noise : Rsa.Noise)
    (plain : List UInt8) : key.encrypt noise plain = .error (.keyTooSmall key.size) :=
  if_pos h

/-- Records are framed with all keys that the private operation undoes the public one for and that
are large enough, and come back from their frame as the text of the batch unless that inflates too
far. The frame is signed just if there is a key for that. Nothing is framed with a smaller key. -/
theorem framed_records_open (key : Option ByteArray) {noise : Rsa.Noise}
    (hnoise : ∀ i j, noise i j ≠ 0) (records : List Record) :
    (∀ pair : Option Rsa.PrivateKey,
      (∀ k ∈ pair, k.Inverts) → (∀ k ∈ pair, Rsa.overhead < k.size) →
      ∃ framed,
        (Sender.make key (pair.map Rsa.PrivateKey.publicKey)).frameRecords noise records =
          .ok framed ∧
        (framed.signature.isSome ↔ ∃ k ∈ key, k.size ≠ 0) ∧
        (Receiver.make key pair).unframe framed.body framed.signature true =
          if (Batch.write records).length ≤ Gzip.maxInflated then
            .ok (Bytes.ofList (Batch.write records))
          else .error (.tooLarge Gzip.maxInflated)) ∧
    ∀ k : Rsa.PublicKey, k.size ≤ Rsa.overhead →
      (Sender.make key (some k)).frameRecords noise records = .error (.keyTooSmall k.size) := by
  constructor
  · intro pair hpair hlarge
    obtain ⟨framed, hframed, hsignature, hopened⟩ :=
      unframe_frame key hpair hlarge hnoise (Bytes.ofList (Batch.write records))
    rw [Bytes.size_ofList] at hopened
    exact ⟨framed, hframed, by rw [hsignature, Option.isSome_map, isSome_usableKey], hopened⟩
  · intro k hk
    simp only [Sender.frameRecords, Sender.frame, Sender.make, Sender.encrypt,
      encrypt_too_small hk, bind, Except.bind]

theorem isPair_mersenne :
    (⟨⟨4951760154835678088235319297, 17⟩, 1763291712928118903⟩ : Rsa.PrivateKey).IsPair := by
  have hp : (mersenne 61).Prime := lucas_lehmer_sufficiency 61 (by norm_num) (by norm_num)
  have hq : (mersenne 31).Prime := lucas_lehmer_sufficiency 31 (by norm_num) (by norm_num)
  exact ⟨mersenne 61, mersenne 31, hp, hq, by decide, by decide +kernel⟩

/-- A record without a number, signed and sealed in blocks of one byte; and one byte less is too few. -/
theorem framed_record_opens :
    let k : Rsa.PrivateKey := ⟨⟨4951760154835678088235319297, 17⟩, 1763291712928118903⟩
    let records : List Record := [⟨"a", "gauge", some .nan, none⟩]
    k.size = 12 ∧
    (∃ framed, (Sender.make (some "secret".toUTF8) (some k.publicKey)).frameRecords
        (fun _ _ => 1) records = .ok framed ∧ framed.signature.isSome ∧
      (Receiver.make (some "secret".toUTF8) (some k)).unframe framed.body framed.signature true =
        .ok (Bytes.ofList (Json.utf8
          "[\x7b\"id\":\"a\",\"type\":\"gauge\",\"value\":null\x7d]"))) ∧
    (Sender.make none (some ⟨2 ^ 88 - 1, 3⟩)).frameRecords (fun _ _ => 1) records =
      .error (.keyTooSmall 11) := by
  intro k records
  have hone : (1 : UInt8) ≠ 0 := by decide
  have hsize : k.size = 12 := by decide
  obtain ⟨opened, -⟩ := framed_records_open (some "secret".toUTF8) (fun _ _ => hone) records
  obtain ⟨-, refused⟩ := framed_records_open none (fun _ _ => hone) records
  obtain ⟨framed, hframed, hsigned, hopened⟩ := opened (some k)
    (fun _ h => Option.some.inj h ▸ isPair_mersenne.inverts)
    (fun _ h => Option.some.inj h ▸ hsize ▸ by decide)
  refine ⟨hsize, ⟨framed, hframed, hsigned.2 ⟨_, rfl, by decide⟩, hopened.trans ?_⟩, ?_⟩
  · rw [if_pos (by decide)]
    rfl
  · exact refused ⟨2 ^ 88 - 1, 3⟩ (by decide)

end Frame
end Telemetry
