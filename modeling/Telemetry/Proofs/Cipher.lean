import Mathlib.FieldTheory.Finite.Basic
import Telemetry.Proofs.Bytes
import Telemetry.Rsa.Seal

/-! Sealed bodies opened. Modulo each of two different primes the two exponents undo each other, and
so they do modulo the product. A padded message begins with a zero byte, so it is a number below the
modulus, and the first zero behind the random bytes is the one before the message. So a body is
opened whatever parts it was sealed in. -/

namespace Telemetry.Rsa

open Bytes (bigEndian ofBigEndian)

theorem powMod_eq (n b e : ℕ) : powMod n b e = b ^ e % n := by
  induction b, e using powMod.induct n with
  | case1 b => rw [powMod, dif_pos rfl, Nat.pow_zero]
  | case2 b e he hodd ih =>
    have hexp : b ^ e = b * (b * b) ^ (e / 2) := by
      rw [← pow_two, ← pow_mul, ← pow_succ']
      congr 1
      omega
    rw [powMod, dif_neg he]
    simp only [if_pos hodd]
    rw [ih, hexp, ← Nat.pow_mod, Nat.mul_mod_mod]
  | case3 b e he heven ih =>
    have hexp : b ^ e = (b * b) ^ (e / 2) := by
      rw [← pow_two, ← pow_mul]
      congr 1
      omega
    rw [powMod, dif_neg he]
    simp only [if_neg heven]
    rw [ih, hexp, ← Nat.pow_mod]

/-- Fermat's little theorem, for an exponent that is one modulo the prime less one. -/
theorem pow_modEq_self {p t : ℕ} (hp : p.Prime) (ht : t % (p - 1) = 1) (m : ℕ) :
    m ^ t ≡ m [MOD p] := by
  have := Fact.mk hp
  rw [← ZMod.natCast_eq_natCast_iff, Nat.cast_pow]
  have hexp : t = (p - 1) * (t / (p - 1)) + 1 := by
    have := Nat.div_add_mod t (p - 1)
    omega
  by_cases hm : (m : ZMod p) = 0
  · rw [hm, zero_pow (by omega)]
  · rw [hexp, pow_succ, pow_mul, ZMod.pow_card_sub_one_eq_one hm, one_pow, one_mul]

/-- The private operation undoes the public one below the modulus. -/
def PrivateKey.Inverts (k : PrivateKey) : Prop :=
  ∀ m < k.publicKey.modulus, k.apply (k.publicKey.apply m) = m

/-- A private key made of two different primes. -/
def PrivateKey.IsPair (k : PrivateKey) : Prop :=
  ∃ p q, p.Prime ∧ q.Prime ∧ p ≠ q ∧
    PrivateKey.make? k.publicKey.modulus k.publicKey.exponent k.exponent p q = some k

namespace PrivateKey.IsPair

variable {k : PrivateKey}

theorem pow_mod (h : k.IsPair) {m : ℕ} (hm : m < k.publicKey.modulus) :
    m ^ (k.publicKey.exponent * k.exponent) % k.publicKey.modulus = m := by
  obtain ⟨p, q, hp, hq, hne, hmake⟩ := h
  simp only [make?, Option.ite_none_right_eq_some, Bool.and_eq_true, beq_iff_eq] at hmake
  obtain ⟨⟨⟨⟨-, hmodulus⟩, hexpp⟩, hexpq⟩, -⟩ := hmake
  have hboth := (Nat.modEq_and_modEq_iff_modEq_mul ((Nat.coprime_primes hp hq).2 hne)).1
    ⟨pow_modEq_self hp hexpp m, pow_modEq_self hq hexpq m⟩
  rw [hmodulus, Nat.ModEq, Nat.mod_eq_of_lt hm] at hboth
  exact hboth

theorem inverts (h : k.IsPair) : k.Inverts := by
  intro m hm
  rw [PrivateKey.apply, PublicKey.apply, powMod_eq, powMod_eq, ← Nat.pow_mod, ← pow_mul,
    h.pow_mod hm]

end PrivateKey.IsPair

namespace PublicKey

theorem apply_lt {k : PublicKey} (h : 0 < k.modulus) (m : ℕ) : k.apply m < k.modulus := by
  rw [apply, powMod_eq]
  exact Nat.mod_lt _ h

variable (k : PublicKey)

theorem modulus_pos {k : PublicKey} (h : 0 < k.size) : 0 < k.modulus := by
  refine Nat.pos_of_ne_zero fun hzero => ?_
  rw [size, bitLength, if_pos hzero] at h
  omega

theorem modulus_lt : k.modulus < 256 ^ k.size := by
  have hpow : (256 : ℕ) ^ k.size = 2 ^ (8 * k.size) := pow_mul 2 8 _ ▸ rfl
  rw [hpow, size, bitLength]
  split_ifs with hzero
  · omega
  · exact Nat.lt_log2_self.trans_le (Nat.pow_le_pow_right (by omega) (by omega))

theorem le_modulus (h : 0 < k.modulus) : 256 ^ (k.size - 1) ≤ k.modulus := by
  have hpow : (256 : ℕ) ^ (k.size - 1) = 2 ^ (8 * (k.size - 1)) := pow_mul 2 8 _ ▸ rfl
  rw [hpow, size, bitLength, if_neg (by omega)]
  exact (Nat.pow_le_pow_right (by omega) (by omega)).trans (Nat.log2_self_le (by omega))

end PublicKey

section Padding

variable {size : ℕ} {noise : ℕ → UInt8} {message : List UInt8}

theorem length_padded (h : message.length + 3 ≤ size) :
    (padded size noise message).length = size := by
  simp only [padded, List.length_cons, List.length_append, List.length_map, List.length_range]
  omega

theorem ofBigEndian_padded_lt (h : message.length + 3 ≤ size) :
    ofBigEndian (padded size noise message) < 256 ^ (size - 1) := by
  have htail := Bytes.ofBigEndian_lt (padded size noise message).tail
  rw [List.length_tail, length_padded h] at htail
  simpa [padded, ofBigEndian] using htail

theorem unpad?_padded (hnoise : ∀ j, noise j ≠ 0) (h : message.length + overhead ≤ size) :
    unpad? (padded size noise message) = some message := by
  rw [overhead] at h
  have hall : ∀ b ∈ (List.range (size - 3 - message.length)).map noise, (b != 0) = true := by
    intro b hb
    obtain ⟨j, -, rfl⟩ := List.mem_map.1 hb
    exact bne_iff_ne.2 (hnoise j)
  have htake : ((List.range (size - 3 - message.length)).map noise ++ 0 :: message).takeWhile
      (· != 0) = (List.range (size - 3 - message.length)).map noise := by
    rw [List.takeWhile_append_of_pos hall]
    simp
  have hdrop : ((List.range (size - 3 - message.length)).map noise ++ 0 :: message).dropWhile
      (· != 0) = 0 :: message := by
    rw [List.dropWhile_append_of_pos hall]
    simp
  simp only [padded, List.cons_append, unpad?, hdrop, htake, List.length_map, List.length_range]
  rw [if_pos (by omega)]

end Padding

section Chunks

variable {α : Type} {n : ℕ}

theorem chunks_append (hn : 0 < n) {xs : List α} (hxs : xs.length = n) (rest : List α) :
    chunks n (xs ++ rest) = xs :: chunks n rest := by
  have hne : ¬(n = 0 ∨ xs ++ rest = []) := by
    rintro (h | h)
    · omega
    · rw [List.append_eq_nil_iff] at h
      simp [h.1] at hxs
      omega
  rw [chunks, dif_neg hne, List.take_left' hxs, List.drop_left' hxs]

theorem flatten_chunks (hn : 0 < n) (xs : List α) : (chunks n xs).flatten = xs := by
  induction xs using chunks.induct n with
  | case1 xs h =>
    rw [chunks, dif_pos h]
    rcases h with h | rfl
    · omega
    · rfl
  | case2 xs h ih => rw [chunks, dif_neg h, List.flatten_cons, ih, List.take_append_drop]

theorem length_le_of_mem_chunks {xs c : List α} (hc : c ∈ chunks n xs) : c.length ≤ n := by
  induction xs using chunks.induct n with
  | case1 xs h =>
    rw [chunks, dif_pos h] at hc
    exact absurd hc List.not_mem_nil
  | case2 xs h ih =>
    rw [chunks, dif_neg h] at hc
    rcases List.mem_cons.1 hc with rfl | hc
    · exact List.length_take_le n xs
    · exact ih hc

end Chunks

variable {k : PrivateKey}

theorem PublicKey.length_sealBlock (key : PublicKey) (noise : ℕ → UInt8) (message : List UInt8) :
    (key.sealBlock noise message).length = key.size :=
  Bytes.length_bigEndian _ _

/-- The number of a padded message is below the modulus, so opening leads back to its bytes. -/
theorem PrivateKey.openBlock?_sealBlock (hk : k.Inverts) {noise : ℕ → UInt8}
    (hnoise : ∀ j, noise j ≠ 0) {message : List UInt8}
    (hlength : message.length + overhead ≤ k.size) :
    k.openBlock? (k.publicKey.sealBlock noise message) = some message := by
  have hpadded : message.length + 3 ≤ k.publicKey.size := le_trans (by rw [overhead]; omega) hlength
  have hmodulus : 0 < k.publicKey.modulus := PublicKey.modulus_pos (by omega)
  have hmessage : ofBigEndian (padded k.publicKey.size noise message) < k.publicKey.modulus :=
    (ofBigEndian_padded_lt hpadded).trans_le (k.publicKey.le_modulus hmodulus)
  have hsealed := k.publicKey.apply_lt hmodulus
    (ofBigEndian (padded k.publicKey.size noise message))
  have hbytes : bigEndian k.size (ofBigEndian (padded k.publicKey.size noise message)) =
      padded k.publicKey.size noise message := by
    have := Bytes.bigEndian_ofBigEndian (padded k.publicKey.size noise message)
    rwa [length_padded hpadded] at this
  simp only [PrivateKey.openBlock?, PublicKey.sealBlock,
    Bytes.ofBigEndian_bigEndian (hsealed.trans k.publicKey.modulus_lt), hk _ hmessage]
  rw [if_pos ⟨hsealed, trivial, (Nat.le_add_left _ _).trans hlength⟩, hbytes]
  exact unpad?_padded hnoise hlength

section

variable {noise : Noise}

theorem mapM_openBlock?_sealBlocks (hk : k.Inverts) (hnoise : ∀ i j, noise i j ≠ 0) (i : ℕ)
    {messages : List (List UInt8)} (h : ∀ m ∈ messages, m.length + overhead ≤ k.size) :
    (chunks k.size (k.publicKey.sealBlocks noise i messages)).mapM k.openBlock? =
      some messages := by
  induction messages generalizing i with
  | nil => rw [PublicKey.sealBlocks, chunks, dif_pos (Or.inr rfl)]; rfl
  | cons m ms ih =>
    have hm := h m (by simp)
    have hsize : 0 < k.size := by
      rw [overhead] at hm
      omega
    rw [PublicKey.sealBlocks, chunks_append hsize (k.publicKey.length_sealBlock _ _),
      List.mapM_cons, PrivateKey.openBlock?_sealBlock hk (hnoise i) hm,
      ih (i + 1) fun m hm => h m (by simp [hm])]
    rfl

theorem length_sealBlocks (key : PublicKey) (i : ℕ) (messages : List (List UInt8)) :
    (key.sealBlocks noise i messages).length = key.size * messages.length := by
  induction messages generalizing i with
  | nil => rfl
  | cons m ms ih =>
    rw [PublicKey.sealBlocks, List.length_append, PublicKey.length_sealBlock, ih,
      List.length_cons, Nat.mul_succ, Nat.add_comm]

end

/-- The bodies that a plain one can be sealed to: it is cut into parts that fit a block each, and these
are padded with any bytes that are not zero. -/
def PublicKey.Seals (k : PublicKey) (plain sealed : List UInt8) : Prop :=
  ∃ (noise : Noise) (parts : List (List UInt8)), (∀ i j, noise i j ≠ 0) ∧
    (∀ m ∈ parts, m.length + overhead ≤ k.size) ∧ parts.flatten = plain ∧
    k.sealBlocks noise 0 parts = sealed

theorem PublicKey.exists_encrypt {key : PublicKey} (hsize : overhead < key.size) {noise : Noise}
    (hnoise : ∀ i j, noise i j ≠ 0) (plain : List UInt8) :
    ∃ sealed, key.encrypt noise plain = .ok sealed ∧ key.Seals plain sealed := by
  have hparts : ∀ m ∈ chunks (key.size - overhead) plain, m.length + overhead ≤ key.size := by
    intro m hm
    have := length_le_of_mem_chunks hm
    exact Nat.add_le_of_le_sub hsize.le this
  refine ⟨_, if_neg (Nat.not_le.2 hsize), noise, _, hnoise, hparts, ?_, rfl⟩
  exact flatten_chunks (Nat.sub_pos_of_lt hsize) plain

namespace PublicKey.Seals

variable {plain sealed : List UInt8}

theorem ne_nil {key : PublicKey} (h : key.Seals plain sealed) (hplain : plain ≠ []) :
    sealed ≠ [] := by
  obtain ⟨noise, parts, -, hfit, rfl, rfl⟩ := h
  obtain ⟨m, ms, rfl⟩ := List.exists_cons_of_ne_nil (show parts ≠ [] by rintro rfl; simp at hplain)
  have hsize : overhead ≤ key.size := le_trans (Nat.le_add_left _ _) (hfit m (by simp))
  rw [← List.length_pos_iff, length_sealBlocks]
  exact Nat.mul_pos (Nat.lt_of_lt_of_le (by decide) hsize) (by simp)

theorem decrypt_eq (hk : k.Inverts) (h : k.publicKey.Seals plain sealed) :
    k.decrypt sealed = .ok plain := by
  obtain ⟨noise, parts, hnoise, hfit, rfl, rfl⟩ := h
  rw [PrivateKey.decrypt, if_neg]
  · rw [mapM_openBlock?_sealBlocks hk hnoise 0 hfit]
  · rw [length_sealBlocks]
    exact not_not.2 (Nat.mul_mod_right _ _)

end PublicKey.Seals
end Telemetry.Rsa
