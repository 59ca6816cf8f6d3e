import Mathlib.Data.Nat.Bitwise
import Telemetry.Deflate.Writer
import Telemetry.Proofs.Bytes

/-! Bits in bytes, from the low end of each byte. What a writer of bits puts behind one another is
read again number by number, at whatever place its bytes stand. -/

namespace Telemetry.Deflate

open Bytes (toList byteAt)

/-- The low `n` bits of a number, the lowest first. -/
def lowBits (n v : ℕ) : List Bool := (List.range n).map v.testBit

@[simp] theorem length_lowBits (n v : ℕ) : (lowBits n v).length = n := by
  rw [lowBits, List.length_map, List.length_range]

theorem lowBits_add (m n v : ℕ) : lowBits (m + n) v = lowBits m v ++ lowBits n (v / 2 ^ m) := by
  rw [lowBits, List.range_add, List.map_append, List.map_map]
  refine congrArg (lowBits m v ++ ·) (List.map_congr_left fun i _ => ?_)
  rw [Function.comp_apply, Nat.testBit_div_two_pow, Nat.add_comm]

theorem lowBits_succ (n v : ℕ) : lowBits (n + 1) v = v.testBit 0 :: lowBits n (v / 2) := by
  rw [Nat.add_comm, lowBits_add, Nat.pow_one]
  rfl

theorem lowBits_mod {m n : ℕ} (h : n ≤ m) (v : ℕ) : lowBits n (v % 2 ^ m) = lowBits n v := by
  refine List.map_congr_left fun i hi => ?_
  rw [Nat.testBit_mod_two_pow, decide_eq_true (by have := List.mem_range.1 hi; omega),
    Bool.true_and]

theorem lowBits_append {m n u : ℕ} (hu : u < 2 ^ m) (v : ℕ) :
    lowBits (m + n) (u + v * 2 ^ m) = lowBits m u ++ lowBits n v := by
  rw [lowBits_add, Nat.add_mul_div_right _ _ (Nat.two_pow_pos m), Nat.div_eq_of_lt hu, Nat.zero_add,
    ← lowBits_mod le_rfl, Nat.add_mul_mod_self_right, Nat.mod_eq_of_lt hu]

def bitsOf (bs : List UInt8) : List Bool := bs.flatMap fun b => lowBits 8 b.toNat

@[simp] theorem bitsOf_append (bs cs : List UInt8) : bitsOf (bs ++ cs) = bitsOf bs ++ bitsOf cs :=
  List.flatMap_append

@[simp] theorem length_bitsOf (bs : List UInt8) : (bitsOf bs).length = 8 * bs.length := by
  induction bs with
  | nil => rfl
  | cons b bs ih =>
    rw [bitsOf, List.flatMap_cons, List.length_append, length_lowBits, ← bitsOf, ih,
      List.length_cons]
    omega

theorem getD_bitsOf (bs : List UInt8) (i : ℕ) :
    (bitsOf bs).getD i false = (bs.getD (i / 8) 0).toNat.testBit (i % 8) := by
  induction bs generalizing i with
  | nil => simp [bitsOf]
  | cons b bs ih =>
    rw [bitsOf, List.flatMap_cons, ← bitsOf]
    rcases Nat.lt_or_ge i 8 with hi | hi
    · rw [List.getD_append _ _ _ _ (by rwa [length_lowBits]), Nat.div_eq_of_lt hi,
        Nat.mod_eq_of_lt hi, List.getD_eq_getElem _ _ (by rwa [length_lowBits])]
      simp [lowBits]
    · obtain ⟨j, rfl⟩ := Nat.exists_eq_add_of_le hi
      rw [List.getD_append_right _ _ _ _ (by rwa [length_lowBits]), length_lowBits,
        Nat.add_sub_cancel_left, ih, Nat.add_mod_left, Nat.add_div_left _ (by decide),
        List.getD_cons_succ]

theorem bit_eq (data : ByteArray) (i : ℕ) :
    bit data i = ((bitsOf (toList data)).getD i false).toNat := by
  have hshift : (UInt8.ofNat (i % 8)).toNat = i % 8 := by
    rw [UInt8.toNat_ofNat']
    omega
  rw [getD_bitsOf, Nat.toNat_testBit, bit, UInt8.toNat_and, UInt8.toNat_shiftRight, hshift,
    Nat.mod_mod, Nat.shiftRight_eq_div_pow, Bytes.byteAt_eq_getD]
  exact Nat.and_one_is_mod _

/-! ### Bits at a place -/

/-- The bits `bs` stand at the place `pos` of the data. -/
def BitsAt (data : ByteArray) (pos : ℕ) (bs : List Bool) : Prop :=
  ∃ before after, bitsOf (toList data) = before ++ bs ++ after ∧ before.length = pos

namespace BitsAt

variable {data : ByteArray} {pos : ℕ} {bs cs : List Bool}

theorem fits (h : BitsAt data pos bs) : pos + bs.length ≤ 8 * data.size := by
  obtain ⟨before, after, hdata, rfl⟩ := h
  rw [Bytes.size_eq_length, ← length_bitsOf, hdata, List.length_append, List.length_append]
  omega

theorem left (h : BitsAt data pos (bs ++ cs)) : BitsAt data pos bs := by
  obtain ⟨before, after, hdata, rfl⟩ := h
  exact ⟨before, cs ++ after, by simpa using hdata, rfl⟩

theorem right (h : BitsAt data pos (bs ++ cs)) : BitsAt data (pos + bs.length) cs := by
  obtain ⟨before, after, hdata, rfl⟩ := h
  exact ⟨before ++ bs, after, by simpa using hdata, by simp⟩

theorem tail {b : Bool} (h : BitsAt data pos (b :: bs)) : BitsAt data (pos + 1) bs := by
  have hsplit : BitsAt data pos ([b] ++ bs) := h
  exact hsplit.right

theorem head {b : Bool} (h : BitsAt data pos (b :: bs)) : bit data pos = b.toNat := by
  obtain ⟨before, after, hdata, rfl⟩ := h
  rw [bit_eq, hdata, List.append_assoc, List.getD_append_right _ _ _ _ le_rfl, Nat.sub_self]
  rfl

theorem of_holdsAt {i : ℕ} {bytes : List UInt8} (h : Bytes.HoldsAt data i bytes) :
    BitsAt data (8 * i) (bitsOf bytes) := by
  obtain ⟨before, after, hdata, rfl⟩ := h
  exact ⟨bitsOf before, bitsOf after, by simp [hdata], length_bitsOf before⟩

theorem bitsValue_eq {n v : ℕ} (h : BitsAt data pos (lowBits n v)) :
    bitsValue data n pos = v % 2 ^ n := by
  induction n generalizing pos v with
  | zero => rw [bitsValue, Nat.pow_zero, Nat.mod_one]
  | succ n ih =>
    rw [lowBits_succ] at h
    rw [bitsValue, h.head, ih h.tail, Nat.pow_succ', Nat.mod_mul, Nat.toNat_testBit, Nat.pow_zero,
      Nat.div_one]

theorem bits?_eq {n v : ℕ} (h : BitsAt data pos (lowBits n v)) (hv : v < 2 ^ n) :
    bits? data n pos = some v := by
  have hfits := h.fits
  rw [length_lowBits] at hfits
  rw [bits?, if_pos hfits, h.bitsValue_eq, Nat.mod_eq_of_lt hv]

end BitsAt

/-! ### Writing -/

namespace BitWriter

def bits (w : BitWriter) : List Bool := bitsOf (toList w.out) ++ lowBits w.count w.value

/-- What does not fill a byte is kept as it is. -/
structure Tidy (w : BitWriter) : Prop where
  value : w.value < 2 ^ w.count
  count : w.count < 8

/-- A tidy writer puts the bits `bs` behind the others and is tidy again. -/
def Writes (w w' : BitWriter) (bs : List Bool) : Prop :=
  w.Tidy → w'.Tidy ∧ w'.bits = w.bits ++ bs

variable {w w' w'' : BitWriter} {bs cs : List Bool}

theorem Writes.refl (w : BitWriter) : Writes w w [] := fun h => ⟨h, (List.append_nil _).symm⟩

theorem Writes.trans (h : Writes w w' bs) (h' : Writes w' w'' cs) : Writes w w'' (bs ++ cs) := by
  intro hw
  obtain ⟨hw', hbits⟩ := h hw
  obtain ⟨hw'', hbits'⟩ := h' hw'
  exact ⟨hw'', by rw [hbits', hbits, List.append_assoc]⟩

theorem Writes.foldl {α : Type} {f : BitWriter → α → BitWriter} {g : α → List Bool} {l : List α}
    (h : ∀ a ∈ l, ∀ w, Writes w (f w a) (g a)) (w : BitWriter) :
    Writes w (l.foldl f w) (l.flatMap g) := by
  induction l generalizing w with
  | nil => exact .refl w
  | cons a l ih =>
    obtain ⟨ha, hl⟩ := List.forall_mem_cons.1 h
    rw [List.foldl_cons, List.flatMap_cons]
    exact (ha w).trans (ih hl _)

theorem tidy_empty : empty.Tidy := ⟨Nat.one_pos, by decide⟩

theorem bits_flush {n : ℕ} (w : BitWriter) (hvalue : w.value < 2 ^ w.count)
    (hcount : w.count < 8 * (n + 1)) : (flush n w).Tidy ∧ (flush n w).bits = w.bits := by
  induction n generalizing w with
  | zero => exact ⟨⟨hvalue, hcount⟩, rfl⟩
  | succ n ih =>
    rw [flush]
    split_ifs with hfew
    · exact ⟨⟨hvalue, hfew⟩, rfl⟩
    · obtain ⟨count, hsplit⟩ := Nat.exists_eq_add_of_le (Nat.not_lt.1 hfew)
      have hrest : w.value / 256 < 2 ^ count := by
        rw [hsplit, Nat.pow_add] at hvalue
        omega
      obtain ⟨htidy, hbits⟩ := ih ⟨w.out.push (UInt8.ofNat (w.value % 256)), w.value / 256,
        w.count - 8⟩ (by rwa [hsplit, Nat.add_sub_cancel_left]) (by simp only; omega)
      refine ⟨htidy, hbits.trans ?_⟩
      have hbyte : (UInt8.ofNat (w.value % 256)).toNat = w.value % 2 ^ 8 := by
        rw [UInt8.toNat_ofNat']
        omega
      have hlast : bitsOf [UInt8.ofNat (w.value % 256)] = lowBits 8 w.value := by
        rw [bitsOf, List.flatMap_singleton, hbyte, lowBits_mod le_rfl]
      simp only [bits, Bytes.toList_push, bitsOf_append, hlast]
      rw [hsplit, Nat.add_sub_cancel_left, lowBits_add 8, List.append_assoc]

theorem writes_put {n v : ℕ} (w : BitWriter) (hn : n ≤ 24) (hv : v < 2 ^ n) :
    Writes w (w.put n v) (lowBits n v) := by
  intro hw
  have hvalue : w.value + v * 2 ^ w.count < 2 ^ (w.count + n) := by
    have hroom := Nat.mul_le_mul_right (2 ^ w.count) (Nat.succ_le_of_lt hv)
    rw [Nat.pow_add, Nat.mul_comm (2 ^ w.count)]
    have := hw.value
    rw [Nat.succ_mul] at hroom
    omega
  have hcount := hw.count
  obtain ⟨htidy, hbits⟩ := bits_flush (n := 4)
    { w with value := w.value + v * 2 ^ w.count, count := w.count + n } hvalue
    (by simp only; omega)
  refine ⟨htidy, hbits.trans ?_⟩
  simp only [bits, lowBits_append hw.value, List.append_assoc]

end BitWriter
end Telemetry.Deflate
