import Telemetry.Gzip
import Telemetry.Proofs.Bytes

/-! What stands around a body. A member begins with ten bytes that are the same in all of them and
ends with the checksum and the size of what it holds, each of them in the bytes that it is read
from. -/

namespace Telemetry.Gzip

open Bytes (HoldsAt toList byteAt littleEndian)

variable {data : ByteArray} {i n : ℕ}

theorem number16_eq (h : HoldsAt data i (littleEndian 2 n)) (hn : n < 65536) :
    number16 data i = n := by
  have hlow := h.byteAt (k := 0) (by simp)
  have hhigh := h.byteAt (k := 1) (by simp)
  rw [number16, ← Nat.add_zero i, hlow, Nat.add_zero, hhigh]
  simp only [Bytes.littleEndian_succ, List.getD_cons_zero, List.getD_cons_succ, UInt8.toNat_ofNat']
  omega

theorem number32_eq (h : HoldsAt data i (littleEndian 4 n)) (hn : n < 2 ^ 32) :
    number32 data i = n := by
  have hsplit : littleEndian 4 n = littleEndian 2 (n % 65536) ++ littleEndian 2 (n / 65536) := by
    have hlow : UInt8.ofNat (n % 65536) = UInt8.ofNat n := by
      rw [← UInt8.toNat_inj, UInt8.toNat_ofNat', UInt8.toNat_ofNat']
      omega
    have hhigh : UInt8.ofNat (n % 65536 / 256) = UInt8.ofNat (n / 256) := by
      rw [← UInt8.toNat_inj, UInt8.toNat_ofNat', UInt8.toNat_ofNat']
      omega
    have hnone (n : ℕ) : littleEndian 0 n = [] := rfl
    simp [Bytes.littleEndian_succ, hnone, hlow, hhigh, Nat.div_div_eq_div_mul]
  rw [hsplit] at h
  have hright := h.right
  rw [Bytes.length_littleEndian] at hright
  rw [number32, number16_eq h.left (by omega), number16_eq hright (by omega)]
  omega

theorem eq_littleEndian {bs : List UInt8} (h : HoldsAt data i bs) (hlength : bs.length = 4) :
    bs = littleEndian 4 (number32 data i) := by
  have hself := Bytes.littleEndian_ofLittleEndian bs
  have hbound := Bytes.ofLittleEndian_lt bs
  rw [hlength] at hself hbound
  rw [← hself] at h
  rw [number32_eq h hbound, hself]

theorem header?_magic {data : ByteArray} (h : HoldsAt data 0 magic) : header? data = some 10 := by
  have hsize := h.fits
  have hbyte {k : ℕ} (hk : k < 10) : byteAt data k = magic.getD k 0 := by
    have := h.byteAt hk
    rwa [Nat.zero_add] at this
  have hlong : ¬data.size < 10 := by
    simp [magic] at hsize
    omega
  simp [header?, hlong, number16, hbyte, magic, skipExtra, skipTextIf, skipChecksum, hasFlag]

def trailer (plain : ByteArray) : List UInt8 :=
  littleEndian 4 (Crc32.digest plain).toNat ++ littleEndian 4 (plain.size % 2 ^ 32)

theorem trailerMatches_iff {data plain : ByteArray} {pos : ℕ} :
    trailerMatches data pos plain ↔ HoldsAt data pos (trailer plain) := by
  constructor
  · intro h
    simp only [trailerMatches, Bool.and_eq_true, decide_eq_true_eq, beq_iff_eq] at h
    obtain ⟨⟨hfits, hdigest⟩, hsize⟩ := h
    obtain ⟨bs, hlength, hbs⟩ := Bytes.exists_holdsAt hfits
    rw [← List.take_append_drop 4 bs] at hbs
    have hhead : (bs.take 4).length = 4 := by rw [List.length_take, hlength]; rfl
    have hleft := eq_littleEndian hbs.left hhead
    have htail := hbs.right
    rw [hhead] at htail
    have hright := eq_littleEndian htail (by rw [List.length_drop, hlength])
    rwa [hleft, hright, hdigest, hsize] at hbs
  · intro h
    have hdigest := number32_eq h.left (Crc32.digest plain).toNat_lt
    have hsize := number32_eq h.right (Nat.mod_lt _ (by decide))
    have hfits := h.fits
    rw [Bytes.length_littleEndian] at hsize
    simp only [trailer, List.length_append, Bytes.length_littleEndian] at hfits
    simp [trailerMatches, hdigest, hsize, hfits]

section

variable (body plain : ByteArray)

theorem toList_member : toList (member body plain) = magic ++ toList body ++ trailer plain := by
  simp [member, trailer]

theorem member_holds_magic : HoldsAt (member body plain) 0 magic :=
  ⟨[], toList body ++ trailer plain, by simp [toList_member], rfl⟩

theorem member_holds_body : HoldsAt (member body plain) 10 (toList body) :=
  ⟨magic, trailer plain, toList_member body plain, rfl⟩

theorem member_holds_trailer : HoldsAt (member body plain) (10 + body.size) (trailer plain) := by
  have h : HoldsAt (member body plain) 10 (toList body ++ trailer plain) :=
    ⟨magic, [], by simp [toList_member], rfl⟩
  simpa [Bytes.size_eq_length] using h.right

theorem trailerMatches_member : trailerMatches (member body plain) (10 + body.size) plain :=
  trailerMatches_iff.2 (member_holds_trailer body plain)

end

end Telemetry.Gzip
