import Mathlib
import Telemetry.Proofs.Framing
import Telemetry.Proofs.Outcome

/-! What opens. The padding that is taken off is the padding that was put on, so a block opens to a
message exactly if it is a sealing of that message, and a body opens exactly if each of its blocks
does. Blocks do not look at each other: two sealed bodies behind one another open one by one. -/

namespace Telemetry.Rsa

open Bytes (bigEndian ofBigEndian)

/-- Only padding that could have been put on is taken off. -/
theorem exists_padded_of_unpad? {bytes message : List UInt8} (h : unpad? bytes = some message) :
    message.length + overhead ≤ bytes.length ∧
      ∃ noise : ℕ → UInt8, (∀ j, noise j ≠ 0) ∧ padded bytes.length noise message = bytes := by
  unfold unpad? at h
  split at h
  · next rest =>
    split at h
    · next message' hrest =>
      obtain ⟨hcount, h⟩ := Option.ite_none_right_eq_some.1 h
      obtain rfl := Option.some.inj h
      have hsplit : rest.takeWhile (· != 0) ++ 0 :: message' = rest := by
        rw [← hrest, List.takeWhile_append_dropWhile]
      have hnonzero : ∀ b ∈ rest.takeWhile (· != 0), b ≠ 0 :=
        fun b hb => by simpa using List.mem_takeWhile_imp hb
      generalize rest.takeWhile (· != 0) = padding at hcount hsplit hnonzero
      have hlength : (0 :: 2 :: rest).length = padding.length + message'.length + 3 := by
        rw [← hsplit]
        simp only [List.length_cons, List.length_append]
        omega
      refine ⟨by rw [hlength, overhead]; omega, fun j => padding.getD j 1, fun j => ?_, ?_⟩
      · rcases Nat.lt_or_ge j padding.length with hj | hj
        · simpa only [List.getD_eq_getElem _ _ hj] using hnonzero _ (List.getElem_mem hj)
        · simp only [List.getD_eq_default _ _ hj]
          decide
      · have hcount : (0 :: 2 :: rest).length - 3 - message'.length = padding.length := by omega
        have hpadding : (List.range padding.length).map (fun j => padding.getD j 1) = padding := by
          refine List.ext_getElem (by simp) fun j hj hj' => ?_
          rw [List.getElem_map, List.getElem_range, List.getD_eq_getElem _ _ hj']
        rw [padded, hcount, hpadding]
        simp [hsplit]
    · cases h
  · cases h

section Blocks

variable {n : ℕ}

theorem chunks_flatten (hn : 0 < n) {blocks : List (List UInt8)} (h : ∀ b ∈ blocks, b.length = n) :
    chunks n blocks.flatten = blocks := by
  induction blocks with
  | nil => rw [List.flatten_nil, chunks, dif_pos (Or.inr rfl)]
  | cons b blocks ih =>
    rw [List.flatten_cons, chunks_append hn (h b (by simp)), ih fun c hc => h c (by simp [hc])]

theorem length_flatten_blocks {blocks : List (List UInt8)} (h : ∀ b ∈ blocks, b.length = n) :
    blocks.flatten.length = n * blocks.length := by
  rw [List.length_flatten, List.map_congr_left h, List.map_const', List.sum_replicate, smul_eq_mul,
    Nat.mul_comm]

theorem length_of_mem_chunks {xs : List UInt8} (hxs : n ∣ xs.length) :
    ∀ b ∈ chunks n xs, b.length = n := by
  intro b hb
  induction xs using chunks.induct n with
  | case1 xs h =>
    rw [chunks, dif_pos h] at hb
    exact absurd hb List.not_mem_nil
  | case2 xs h ih =>
    rw [chunks, dif_neg h] at hb
    have hle : n ≤ xs.length :=
      Nat.le_of_dvd (List.length_pos_iff.2 fun hnil => h (Or.inr hnil)) hxs
    rcases List.mem_cons.1 hb with rfl | hb
    · rw [List.length_take, Nat.min_eq_left hle]
    · refine ih ?_ hb
      rw [List.length_drop]
      exact Nat.dvd_sub hxs dvd_rfl

theorem length_chunks (hn : 0 < n) (xs : List UInt8) : (chunks n xs).length = xs.length ⌈/⌉ n := by
  rw [Nat.ceilDiv_eq_add_pred_div]
  induction xs using chunks.induct n with
  | case1 xs h =>
    obtain rfl : xs = [] := h.resolve_left hn.ne'
    rw [chunks, dif_pos (Or.inr rfl), List.length_nil, List.length_nil, Nat.zero_add,
      Nat.div_eq_of_lt (Nat.sub_lt hn Nat.one_pos)]
  | case2 xs h ih =>
    have hpos : 0 < xs.length := List.length_pos_iff.2 fun hnil => h (Or.inr hnil)
    rw [chunks, dif_neg h, List.length_cons, ih, List.length_drop]
    rcases Nat.lt_or_ge xs.length n with hlt | hge
    · rw [Nat.sub_eq_zero_of_le hlt.le, Nat.zero_add, Nat.div_eq_of_lt (Nat.sub_lt hn Nat.one_pos)]
      exact (Nat.div_eq_of_lt_le (by omega) (by omega)).symm
    · rw [← Nat.add_div_right _ hn]
      congr 1
      omega

end Blocks

variable {k : PrivateKey}

theorem PrivateKey.openBlock?_eq_some_iff (hk : k.Inverts) {block message : List UInt8}
    (hblock : block.length = k.size) :
    k.openBlock? block = some message ↔ message.length + overhead ≤ k.size ∧
      ∃ noise : ℕ → UInt8, (∀ j, noise j ≠ 0) ∧ k.publicKey.sealBlock noise message = block := by
  constructor
  · intro h
    obtain ⟨⟨hlt, hback, -⟩, h⟩ := Option.ite_none_right_eq_some.1 h
    obtain ⟨hlength, noise, hnoise, hpadded⟩ := exists_padded_of_unpad? h
    rw [Bytes.length_bigEndian] at hlength hpadded
    refine ⟨hlength, noise, hnoise, ?_⟩
    -- the number that was padded is the one the block was opened to
    have hopened : k.apply (ofBigEndian block) < 256 ^ k.size := by
      refine lt_trans ?_ k.publicKey.modulus_lt
      rw [PrivateKey.apply, powMod_eq]
      exact Nat.mod_lt _ (Nat.zero_lt_of_lt hlt)
    rw [PublicKey.sealBlock]
    change bigEndian k.size (k.publicKey.apply (ofBigEndian (padded k.size noise message))) = block
    rw [hpadded, Bytes.ofBigEndian_bigEndian hopened, hback, ← hblock, Bytes.bigEndian_ofBigEndian]
  · rintro ⟨hlength, noise, hnoise, rfl⟩
    exact PrivateKey.openBlock?_sealBlock hk hnoise hlength

theorem PrivateKey.decrypt_eq_ciphertextLength_iff {sealed : List UInt8} :
    k.decrypt sealed = .error (.ciphertextLength sealed.length k.size) ↔ ¬k.size ∣ sealed.length := by
  rw [Nat.dvd_iff_mod_eq_zero, PrivateKey.decrypt]
  split_ifs with h
  · simp [h]
  · cases (chunks k.size sealed).mapM k.openBlock? <;> simp [h]

theorem PrivateKey.decrypt_flatten (hsize : 0 < k.size) {blocks : List (List UInt8)}
    (h : ∀ b ∈ blocks, b.length = k.size) :
    k.decrypt blocks.flatten = match blocks.mapM k.openBlock? with
      | some parts => .ok parts.flatten
      | none => .error .decrypt := by
  have hwhole : blocks.flatten.length % k.size = 0 := by
    rw [length_flatten_blocks h, Nat.mul_mod_right]
  have hopened : k.decrypt blocks.flatten = _ := if_neg (not_not.2 hwhole)
  rw [chunks_flatten hsize h] at hopened
  exact hopened

theorem PrivateKey.decrypt_eq_ok_iff (hsize : 0 < k.size) {blocks : List (List UInt8)}
    (h : ∀ b ∈ blocks, b.length = k.size) {plain : List UInt8} :
    k.decrypt blocks.flatten = .ok plain ↔
      ∃ parts : List (List UInt8), blocks.map k.openBlock? = parts.map some ∧ parts.flatten = plain := by
  rw [decrypt_flatten hsize h]
  simp only [← mapM_eq_some_iff]
  cases blocks.mapM k.openBlock? <;> simp

theorem PrivateKey.decrypt_eq_decrypt_iff (hsize : 0 < k.size) {blocks : List (List UInt8)}
    (h : ∀ b ∈ blocks, b.length = k.size) :
    k.decrypt blocks.flatten = .error .decrypt ↔ ∃ b ∈ blocks, k.openBlock? b = none := by
  rw [decrypt_flatten hsize h, ← mapM_eq_none_iff]
  cases blocks.mapM k.openBlock? <;> simp

theorem exists_blocks {n : ℕ} (hn : 0 < n) {xs : List UInt8} (hxs : n ∣ xs.length) :
    ∃ blocks : List (List UInt8), (∀ b ∈ blocks, b.length = n) ∧ blocks.flatten = xs :=
  ⟨chunks n xs, length_of_mem_chunks hxs, flatten_chunks hn xs⟩

theorem PrivateKey.dvd_of_decrypt {sealed plain : List UInt8} (h : k.decrypt sealed = .ok plain) :
    k.size ∣ sealed.length := by
  by_contra hsize
  rw [decrypt_eq_ciphertextLength_iff.2 hsize] at h
  cases h

theorem PrivateKey.decrypt_append (hsize : 0 < k.size) {a b x y : List UInt8}
    (ha : k.decrypt a = .ok x) (hb : k.decrypt b = .ok y) : k.decrypt (a ++ b) = .ok (x ++ y) := by
  obtain ⟨as, has, rfl⟩ := exists_blocks hsize (dvd_of_decrypt ha)
  obtain ⟨bs, hbs, rfl⟩ := exists_blocks hsize (dvd_of_decrypt hb)
  obtain ⟨xs, hxs, rfl⟩ := (decrypt_eq_ok_iff hsize has).1 ha
  obtain ⟨ys, hys, rfl⟩ := (decrypt_eq_ok_iff hsize hbs).1 hb
  rw [← List.flatten_append, ← List.flatten_append]
  refine (decrypt_eq_ok_iff hsize fun c hc => ?_).2 ⟨xs ++ ys, by simp [hxs, hys], rfl⟩
  exact (List.mem_append.1 hc).elim (has c) (hbs c)

theorem PublicKey.sealBlocks_congr {key : PublicKey} {noise noise' : Noise} {i : ℕ}
    (h : ∀ j, i ≤ j → noise j = noise' j) (messages : List (List UInt8)) :
    key.sealBlocks noise i messages = key.sealBlocks noise' i messages := by
  induction messages generalizing i with
  | nil => rfl
  | cons m ms ih =>
    rw [sealBlocks, sealBlocks, h i le_rfl, ih fun j hj => h j (Nat.le_of_succ_le hj)]

theorem PrivateKey.exists_sealBlocks (hk : k.Inverts) {blocks parts : List (List UInt8)}
    (hblocks : ∀ b ∈ blocks, b.length = k.size) (h : blocks.map k.openBlock? = parts.map some)
    (i : ℕ) : (∀ m ∈ parts, m.length + overhead ≤ k.size) ∧
      ∃ noise : Noise, (∀ i j, noise i j ≠ 0) ∧
        k.publicKey.sealBlocks noise i parts = blocks.flatten := by
  induction blocks generalizing parts i with
  | nil =>
    obtain rfl : parts = [] := by simpa using h.symm
    have hone : (1 : UInt8) ≠ 0 := by decide
    exact ⟨nofun, fun _ _ => 1, fun _ _ => hone, rfl⟩
  | cons b blocks ih =>
    rcases parts with _ | ⟨m, parts⟩
    · cases h
    · obtain ⟨hopen, hrest⟩ := List.cons.inj h
      obtain ⟨hm, noise, hnoise, hsealed⟩ :=
        (openBlock?_eq_some_iff hk (hblocks b (by simp))).1 hopen
      obtain ⟨hparts, later, hlater, hflatten⟩ :=
        ih (fun c hc => hblocks c (by simp [hc])) hrest (i + 1)
      refine ⟨by simpa [hm] using hparts, fun j => if j = i then noise else later j,
        fun j => ?_, ?_⟩
      · by_cases hj : j = i
        · simpa only [if_pos hj] using hnoise
        · simpa only [if_neg hj] using hlater j
      · rw [PublicKey.sealBlocks, if_pos rfl, hsealed, List.flatten_cons, ← hflatten]
        congr 1
        exact PublicKey.sealBlocks_congr (fun j hj => if_neg (by omega)) parts

/-- Decryption gives back exactly what encryption can seal. -/
theorem PrivateKey.decrypt_eq_ok_iff_seals (hk : k.Inverts) (hsize : 0 < k.size)
    {sealed plain : List UInt8} :
    k.decrypt sealed = .ok plain ↔ k.publicKey.Seals plain sealed := by
  refine ⟨fun h => ?_, fun h => h.decrypt_eq hk⟩
  obtain ⟨blocks, hblocks, rfl⟩ := exists_blocks hsize (dvd_of_decrypt h)
  obtain ⟨parts, hopen, rfl⟩ := (decrypt_eq_ok_iff hsize hblocks).1 h
  obtain ⟨hparts, noise, hnoise, hsealed⟩ := exists_sealBlocks hk hblocks hopen 0
  exact ⟨noise, parts, hnoise, hparts, rfl, hsealed⟩

/-- A key whose private operation undoes the public one, with a modulus of at least twelve bytes,
seals every body, in as many blocks as its bytes need at eleven less than the modulus a block, and
opens it again, whatever bytes other than zero it was padded with. A body that is no whole number of
blocks is refused for its length; any other opens block by block, or not at all if one of its blocks
does not. A block opens to what it is a sealing of, a body to what it can have been sealed from, and
two bodies behind one another to what they open to. -/
theorem PrivateKey.sealed_bodies_open (hk : k.Inverts) (hsize : 12 ≤ k.size) :
    (∀ (noise : Noise) (plain : List UInt8), (∀ i j, noise i j ≠ 0) →
      ∃ sealed, k.publicKey.encrypt noise plain = .ok sealed ∧
        sealed.length = k.size * (plain.length ⌈/⌉ (k.size - 11)) ∧ k.decrypt sealed = .ok plain) ∧
    (∀ sealed : List UInt8,
      k.decrypt sealed = .error (.ciphertextLength sealed.length k.size) ↔ ¬k.size ∣ sealed.length) ∧
    (∀ sealed : List UInt8, k.size ∣ sealed.length →
      ∃ blocks : List (List UInt8), (∀ b ∈ blocks, b.length = k.size) ∧ blocks.flatten = sealed ∧
        (∀ plain, k.decrypt sealed = .ok plain ↔
          ∃ parts : List (List UInt8), blocks.map k.openBlock? = parts.map some ∧
            parts.flatten = plain) ∧
        (k.decrypt sealed = .error .decrypt ↔ ∃ b ∈ blocks, k.openBlock? b = none)) ∧
    (∀ block message : List UInt8, block.length = k.size →
      (k.openBlock? block = some message ↔ message.length + 11 ≤ k.size ∧
        ∃ noise : ℕ → UInt8, (∀ j, noise j ≠ 0) ∧ k.publicKey.sealBlock noise message = block)) ∧
    (∀ sealed plain : List UInt8,
      k.decrypt sealed = .ok plain ↔ k.publicKey.Seals plain sealed) ∧
    ∀ a b x y : List UInt8, k.decrypt a = .ok x → k.decrypt b = .ok y →
      k.decrypt (a ++ b) = .ok (x ++ y) := by
  have hpos : 0 < k.size := by omega
  refine ⟨fun noise plain hnoise => ?_, fun sealed => decrypt_eq_ciphertextLength_iff,
    fun sealed hsealed => ?_, fun block message => openBlock?_eq_some_iff hk,
    fun sealed plain => decrypt_eq_ok_iff_seals hk hpos, fun a b x y => decrypt_append hpos⟩
  · obtain ⟨sealed, hsealed, hseals⟩ : ∃ sealed, k.publicKey.encrypt noise plain = .ok sealed ∧
        k.publicKey.Seals plain sealed := PublicKey.exists_encrypt hsize hnoise plain
    refine ⟨sealed, hsealed, ?_, hseals.decrypt_eq hk⟩
    obtain rfl := Except.ok.inj ((if_neg (Nat.not_le.2 hsize)).symm.trans hsealed)
    have hcapacity : 0 < k.publicKey.size - overhead := Nat.sub_pos_of_lt hsize
    rw [length_sealBlocks, length_chunks hcapacity]
    rfl
  · obtain ⟨blocks, hblocks, rfl⟩ := exists_blocks hpos hsealed
    exact ⟨blocks, hblocks, rfl, fun plain => decrypt_eq_ok_iff hpos hblocks,
      decrypt_eq_decrypt_iff hpos hblocks⟩

/-- Zeros in the message, a modulus of 92 bits and a block for every byte. -/
theorem PrivateKey.zeros_are_opened :
    let k : PrivateKey := ⟨⟨4951760154835678088235319297, 17⟩, 1763291712928118903⟩
    k.Inverts ∧ 12 ≤ k.size ∧ bitLength k.publicKey.modulus = 92 ∧
      ∃ sealed, k.publicKey.encrypt (fun i _ => if i = 0 then 2 else 255) [0, 7, 0] = .ok sealed ∧
        sealed.length = 36 ∧ k.decrypt sealed = .ok [0, 7, 0] ∧
        k.decrypt (sealed ++ sealed) = .ok [0, 7, 0, 0, 7, 0] ∧
        k.decrypt (0 :: sealed) = .error (.ciphertextLength 37 12) := by
  intro k
  have hk : k.Inverts := Frame.isPair_mersenne.inverts
  have hsize : 12 ≤ k.size := by decide
  obtain ⟨opened, refused, -, -, -, joined⟩ := sealed_bodies_open hk hsize
  obtain ⟨sealed, hsealed, hlength, hopen⟩ :=
    opened (fun i _ => if i = 0 then 2 else 255) [0, 7, 0] fun i _ => by
      by_cases hi : i = 0 <;> simp [hi]
  have hblocks : k.size * ([(0 : UInt8), 7, 0].length ⌈/⌉ (k.size - 11)) = 36 := by decide
  rw [hblocks] at hlength
  have htwelve : k.size = 12 := by decide
  have hlong := (refused (0 :: sealed)).2 (by rw [List.length_cons, hlength]; decide)
  rw [List.length_cons, hlength, htwelve] at hlong
  exact ⟨hk, hsize, by decide, sealed, hsealed, hlength, hopen, joined _ _ _ _ hopen hopen, hlong⟩

end Telemetry.Rsa
