import Mathlib.Algebra.Order.Ring.Nat
import Mathlib.Data.List.GetD
import Telemetry.Bytes.Basic

/-! Numbers as bytes, and bytes at a place. As many bytes as a number has are the number again in
either order, and what stands at a place of a longer string is read there byte by byte. -/

namespace Telemetry.Bytes

theorem size_eq_length (b : ByteArray) : b.size = (toList b).length := by
  rw [toList, Array.length_toList, ByteArray.size]

@[simp] theorem size_ofList (bs : List UInt8) : (ofList bs).size = bs.length := by
  rw [size_eq_length, toList_ofList]

theorem toList_inj {a b : ByteArray} (h : toList a = toList b) : a = b := by
  rw [← ofList_toList a, h, ofList_toList]

@[simp] theorem toList_append (a b : ByteArray) : toList (a ++ b) = toList a ++ toList b := by
  simp [toList]

@[simp] theorem toList_push (a : ByteArray) (byte : UInt8) :
    toList (a.push byte) = toList a ++ [byte] := by
  simp [toList]

theorem toList_extract (a : ByteArray) (i j : ℕ) :
    toList (a.extract i j) = ((toList a).take j).drop i := by
  rw [toList, ByteArray.data_extract, Array.toList_extract]
  simp [List.extract, toList, List.drop_take]

/-! ### Numbers -/

@[simp] theorem length_littleEndian (count n : ℕ) : (littleEndian count n).length = count := by
  simp [littleEndian]

@[simp] theorem length_bigEndian (count n : ℕ) : (bigEndian count n).length = count := by
  simp [bigEndian]

theorem littleEndian_succ (count n : ℕ) :
    littleEndian (count + 1) n = UInt8.ofNat n :: littleEndian count (n / 256) := by
  simp [littleEndian, List.range_succ_eq_map, Nat.pow_succ', Nat.div_div_eq_div_mul]

theorem bigEndian_eq_reverse (count n : ℕ) :
    bigEndian count n = (littleEndian count n).reverse := by
  refine List.ext_getElem (by simp) fun i hi _ => ?_
  simp [bigEndian, littleEndian]

theorem ofBigEndian_eq_reverse (bs : List UInt8) :
    ofBigEndian bs = ofLittleEndian bs.reverse := by
  simp [ofBigEndian, ofLittleEndian, Nat.add_comm]

theorem ofLittleEndian_littleEndian {count n : ℕ} (h : n < 256 ^ count) :
    ofLittleEndian (littleEndian count n) = n := by
  induction count generalizing n with
  | zero =>
    obtain rfl : n = 0 := Nat.lt_one_iff.1 h
    rfl
  | succ count ih =>
    have hrest : n / 256 < 256 ^ count := by
      rw [Nat.pow_succ] at h
      omega
    have hcons : ofLittleEndian (littleEndian (count + 1) n) =
        (UInt8.ofNat n).toNat + 256 * ofLittleEndian (littleEndian count (n / 256)) := by
      rw [littleEndian_succ, ofLittleEndian, List.foldr_cons, ← ofLittleEndian]
    rw [hcons, ih hrest, UInt8.toNat_ofNat']
    omega

theorem littleEndian_ofLittleEndian (bs : List UInt8) :
    littleEndian bs.length (ofLittleEndian bs) = bs := by
  induction bs with
  | nil => rfl
  | cons b bs ih =>
    have hb := b.toNat_lt
    have hcons : ofLittleEndian (b :: bs) = b.toNat + 256 * ofLittleEndian bs := rfl
    have hrest : (b.toNat + 256 * ofLittleEndian bs) / 256 = ofLittleEndian bs := by omega
    have hlow : UInt8.ofNat (b.toNat + 256 * ofLittleEndian bs) = b := by
      rw [← UInt8.toNat_inj, UInt8.toNat_ofNat']
      omega
    rw [List.length_cons, littleEndian_succ, hcons, hrest, hlow, ih]

theorem ofLittleEndian_lt (bs : List UInt8) : ofLittleEndian bs < 256 ^ bs.length := by
  induction bs with
  | nil => exact Nat.one_pos
  | cons b bs ih =>
    have hb := b.toNat_lt
    have hcons : ofLittleEndian (b :: bs) = b.toNat + 256 * ofLittleEndian bs := rfl
    rw [hcons, List.length_cons, Nat.pow_succ]
    omega

theorem ofBigEndian_bigEndian {count n : ℕ} (h : n < 256 ^ count) :
    ofBigEndian (bigEndian count n) = n := by
  rw [ofBigEndian_eq_reverse, bigEndian_eq_reverse, List.reverse_reverse,
    ofLittleEndian_littleEndian h]

theorem bigEndian_ofBigEndian (bs : List UInt8) : bigEndian bs.length (ofBigEndian bs) = bs := by
  rw [ofBigEndian_eq_reverse, bigEndian_eq_reverse, ← List.length_reverse,
    littleEndian_ofLittleEndian, List.reverse_reverse]

theorem ofBigEndian_lt (bs : List UInt8) : ofBigEndian bs < 256 ^ bs.length := by
  rw [ofBigEndian_eq_reverse, ← List.length_reverse]
  exact ofLittleEndian_lt _

/-! ### Places -/

theorem byteAt_eq_getD (b : ByteArray) (i : ℕ) : byteAt b i = (toList b).getD i 0 := by
  unfold byteAt
  split_ifs with h
  · rw [List.getD_eq_getElem _ _ (by rwa [← size_eq_length])]
    rfl
  · rw [List.getD_eq_default _ _ (by rw [← size_eq_length]; omega)]

/-- The bytes `bs` stand at place `i` of the data. -/
def HoldsAt (data : ByteArray) (i : ℕ) (bs : List UInt8) : Prop :=
  ∃ before after, toList data = before ++ bs ++ after ∧ before.length = i

namespace HoldsAt

variable {data : ByteArray} {i : ℕ} {bs cs : List UInt8}

theorem fits (h : HoldsAt data i bs) : i + bs.length ≤ data.size := by
  obtain ⟨before, after, hdata, rfl⟩ := h
  rw [size_eq_length, hdata, List.length_append, List.length_append]
  omega

theorem left (h : HoldsAt data i (bs ++ cs)) : HoldsAt data i bs := by
  obtain ⟨before, after, hdata, rfl⟩ := h
  exact ⟨before, cs ++ after, by simpa using hdata, rfl⟩

theorem right (h : HoldsAt data i (bs ++ cs)) : HoldsAt data (i + bs.length) cs := by
  obtain ⟨before, after, hdata, rfl⟩ := h
  exact ⟨before ++ bs, after, by simpa using hdata, by simp⟩

theorem byteAt (h : HoldsAt data i bs) {k : ℕ} (hk : k < bs.length) :
    Bytes.byteAt data (i + k) = bs.getD k 0 := by
  obtain ⟨before, after, hdata, rfl⟩ := h
  rw [byteAt_eq_getD, hdata, List.append_assoc, List.getD_append_right _ _ _ _ (by omega),
    Nat.add_sub_cancel_left, List.getD_append _ _ _ _ hk]

theorem head {b : UInt8} (h : HoldsAt data i (b :: bs)) : Bytes.byteAt data i = b :=
  h.byteAt (k := 0) (Nat.succ_pos _)

theorem tail {b : UInt8} (h : HoldsAt data i (b :: bs)) : HoldsAt data (i + 1) bs := by
  have hsplit : HoldsAt data i ([b] ++ bs) := h
  exact hsplit.right

end HoldsAt

theorem exists_holdsAt {data : ByteArray} {pos n : ℕ} (h : pos + n ≤ data.size) :
    ∃ bs, bs.length = n ∧ HoldsAt data pos bs := by
  rw [size_eq_length] at h
  refine ⟨((toList data).drop pos).take n, ?_, (toList data).take pos,
    ((toList data).drop pos).drop n, ?_, ?_⟩
  · rw [List.length_take, List.length_drop]
    omega
  · rw [List.append_assoc, List.take_append_drop, List.take_append_drop]
  · rw [List.length_take]
    omega

end Telemetry.Bytes
