import Telemetry.Proofs.Locality
import Telemetry.Proofs.Packing

/-! Members and what follows them. A member is a header with a deflated body and behind it the
checksum and the size of what the body stands for. It is read under every limit that this fits,
whatever comes behind it, and with another checksum or size it is read under none. -/

namespace Telemetry

open Bytes (HoldsAt toList ofList byteAt)
open Deflate (Shares Confined)

/-! ### Data that agree -/

namespace Deflate.Shares

variable {data other : ByteArray} {stop start n : ℕ}

theorem of_append {before after after' : List UInt8} (hdata : toList data = before ++ after)
    (hother : toList other = before ++ after') : Shares data other (8 * before.length) where
  fits := by
    rw [Bytes.size_eq_length, hother, List.length_append]
    omega
  bytes := by
    intro i hi
    rw [Bytes.byteAt_eq_getD, Bytes.byteAt_eq_getD, hdata, hother,
      List.getD_append _ _ _ _ (by omega), List.getD_append _ _ _ _ (by omega)]

theorem number16_eq (h : Shares data other stop) (hstart : 8 * (start + 2) ≤ stop) :
    Gzip.number16 other start = Gzip.number16 data start := by
  rw [Gzip.number16, Gzip.number16, h.bytes start (by omega), h.bytes (start + 1) (by omega)]

theorem ofRange_eq (h : Shares data other stop) (hn : 8 * (start + n) ≤ stop) :
    Crc32.ofRange other start n = Crc32.ofRange data start n := by
  have hsteps (c : UInt32) : Crc32.steps other n start c = Crc32.steps data n start c := by
    induction n generalizing start c with
    | zero => rfl
    | succ n ih => rw [Crc32.steps, Crc32.steps, h.bytes start (by omega), ih (by omega)]
  rw [Crc32.ofRange, Crc32.ofRange, hsteps]

end Deflate.Shares

namespace Gzip

/-! ### Headers -/

section

variable {data : ByteArray} {flags : UInt8} {pos next : ℕ}

theorem skipText_confined {fuel : ℕ} (h : skipText data fuel pos = some next) :
    Confined (skipText · fuel pos) data (8 * pos) (8 * next) := by
  induction fuel generalizing pos with
  | zero => cases h
  | succ fuel ih =>
    rw [skipText, Option.ite_none_right_eq_some] at h
    obtain ⟨hpos, h⟩ := h
    split_ifs at h with hzero
    · obtain rfl := Option.some.inj h
      refine ⟨by omega, by omega, fun other hother => ?_⟩
      have hfits := hother.fits
      rw [skipText, skipText, if_pos hpos, if_pos (by omega), hother.bytes pos (by omega),
        if_pos hzero, if_pos hzero]
    · have hrest := ih h
      have hahead := hrest.ahead
      refine ⟨by omega, hrest.fits, fun other hother => ?_⟩
      have hfits := hother.fits
      rw [skipText, skipText, if_pos hpos, if_pos (by omega), hother.bytes pos (by omega),
        if_neg hzero, if_neg hzero, hrest.same other hother]

theorem skipTextIf_confined {present : Bool} (h : skipTextIf data present pos = some next)
    (hpos : 8 * pos ≤ 8 * data.size) :
    Confined (skipTextIf · present pos) data (8 * pos) (8 * next) := by
  unfold skipTextIf at h ⊢
  split_ifs at h ⊢
  · exact skipText_confined h
  · obtain rfl := Option.some.inj h
    exact .const _ hpos

theorem skipExtra_confined (h : skipExtra data flags pos = some next)
    (hpos : 8 * pos ≤ 8 * data.size) :
    Confined (skipExtra · flags pos) data (8 * pos) (8 * next) := by
  unfold skipExtra at h ⊢
  split_ifs at h ⊢
  · dsimp only at h ⊢
    split_ifs at h with hroom
    obtain rfl := Option.some.inj h
    have hnumber : 8 * (pos + 2) ≤ 8 * (pos + 2 + number16 data pos) := by omega
    refine ⟨by omega, by omega, fun other hother => ?_⟩
    have hfits := hother.fits
    simp only [hother.number16_eq hnumber, if_pos hroom]
    exact if_pos ⟨by omega, by omega⟩
  · obtain rfl := Option.some.inj h
    exact .const _ hpos

theorem skipChecksum_confined (h : skipChecksum data flags pos = some next)
    (hpos : 8 * pos ≤ 8 * data.size) :
    Confined (skipChecksum · flags pos) data (8 * pos) (8 * next) := by
  unfold skipChecksum at h ⊢
  split_ifs at h ⊢ with hflag hsum
  · obtain rfl := Option.some.inj h
    have hnumber : 8 * (pos + 2) ≤ 8 * (pos + 2) := le_rfl
    have hrange : 8 * (0 + pos) ≤ 8 * (pos + 2) := by omega
    refine ⟨by omega, by omega, fun other hother => ?_⟩
    have hfits := hother.fits
    simp only [hother.number16_eq hnumber,
      hother.ofRange_eq hrange, if_pos hsum]
    exact if_pos ⟨by omega, hsum.2⟩
  · obtain rfl := Option.some.inj h
    exact .const _ hpos

/-- The fields that the flags announce, behind the ten bytes that every header has. -/
def fields? (data : ByteArray) (flags : UInt8) : Option ℕ := do
  let pos ← skipExtra data flags 10
  let pos ← skipTextIf data (hasFlag flags 8) pos
  let pos ← skipTextIf data (hasFlag flags 16) pos
  skipChecksum data flags pos

theorem header?_eq (data : ByteArray) : header? data =
    if data.size < 10 ∨ number16 data 0 ≠ 0x8b1f ∨ byteAt data 2 ≠ 8 ∨
      hasFlag (byteAt data 3) 0xe0 then none
    else fields? data (byteAt data 3) := by
  unfold header?
  dsimp only
  split_ifs <;> rfl

theorem fields?_confined (h : fields? data flags = some next) (hsize : 8 * 10 ≤ 8 * data.size) :
    Confined (fields? · flags) data (8 * 10) (8 * next) := by
  unfold fields? at h ⊢
  obtain ⟨extra, hextra, h⟩ := Option.bind_eq_some_iff.1 h
  obtain ⟨name, hname, h⟩ := Option.bind_eq_some_iff.1 h
  obtain ⟨comment, hcomment, h⟩ := Option.bind_eq_some_iff.1 h
  have hfirst := skipExtra_confined hextra hsize
  have hsecond := skipTextIf_confined hname hfirst.fits
  have hthird := skipTextIf_confined hcomment hsecond.fits
  exact .bind hextra hfirst (.bind hname hsecond (.bind hcomment hthird
    (skipChecksum_confined h hthird.fits)))

theorem header?_confined (h : header? data = some next) :
    Confined header? data (8 * 10) (8 * next) := by
  have hheader := h
  rw [header?_eq] at hheader
  split_ifs at hheader with hbad
  have hfields := fields?_confined hheader (by omega)
  refine ⟨hfields.ahead, hfields.fits, fun other hother => ?_⟩
  have hahead := hfields.ahead
  have hfits := hother.fits
  have hmagic := hother.number16_eq (show 8 * (0 + 2) ≤ 8 * next by omega)
  rw [header?_eq, header?_eq, hmagic, hother.bytes 2 (by omega), hother.bytes 3 (by omega),
    if_neg hbad, if_neg (not_or.2 ⟨by omega, (not_or.1 hbad).2⟩), hfields.same other hother]

end

theorem holdsAt_append_iff {front tail : ByteArray} {bs : List UInt8} :
    HoldsAt (front ++ tail) front.size bs ↔ bs <+: toList tail := by
  constructor
  · rintro ⟨before, after, hbytes, hlength⟩
    rw [Bytes.toList_append, List.append_assoc] at hbytes
    rw [Bytes.size_eq_length] at hlength
    exact ⟨after, (List.append_inj_right hbytes hlength.symm).symm⟩
  · rintro ⟨after, hafter⟩
    exact ⟨toList front, after, by rw [Bytes.toList_append, ← hafter, List.append_assoc],
      (Bytes.size_eq_length front).symm⟩

/-! ### Members -/

/-- A header and a deflated body that stands for `plain`, up to the end of its last byte. -/
def Body (front plain : ByteArray) : Prop :=
  ∃ start p, header? front = some start ∧
    Deflate.inflate front plain.size (8 * start) = .ok p ∧ p.out = plain ∧
    (p.pos + 7) / 8 = front.size

section

variable {front plain data : ByteArray} {limit : ℕ}

/-- What is behind a body only decides whether the trailer is right. -/
theorem Body.decompress_eq (h : Body front plain) (limit : ℕ) (tail : ByteArray) :
    decompress limit (front ++ tail) =
      if plain.size ≤ limit then
        if trailer plain <+: toList tail then .ok plain else .error .corrupt
      else .error (.tooLarge limit) := by
  obtain ⟨start, p, hheader, hinflate, rfl, hend⟩ := h
  have hbody := Deflate.inflate_confined hinflate
  have hshares : Shares front (front ++ tail) (8 * front.size) := by
    have := Shares.of_append (List.append_nil _).symm (Bytes.toList_append front tail)
    rwa [← Bytes.size_eq_length] at this
  have hheader' := (header?_confined hheader).same (front ++ tail)
    (hshares.mono (hbody.ahead.trans hbody.fits))
  have hinflate' := hbody.same (front ++ tail) (hshares.mono hbody.fits)
  rw [hinflate] at hinflate'
  have hlimited := (Deflate.limited_inflate (front ++ tail) (8 * start) p.out.size p
    (Nat.zero_le _) hinflate').2.2 limit (Nat.zero_le _)
  have htrailer : trailerMatches (front ++ tail) ((p.pos + 7) / 8) p.out ↔
      trailer p.out <+: toList tail := by
    rw [hend, trailerMatches_iff, holdsAt_append_iff]
  by_cases hroom : p.out.size ≤ limit
  · simp only [decompress, hheader', hheader, hlimited, if_pos hroom, htrailer]
  · simp only [decompress, hheader', hheader, hlimited, if_neg hroom]

theorem decompress_eq_ok_iff : decompress limit data = .ok plain ↔ plain.size ≤ limit ∧
    ∃ front rest, Body front plain ∧ data = front ++ (ofList (trailer plain) ++ rest) := by
  constructor
  · intro h
    obtain ⟨hfits, hsame⟩ := decompress_of_ok h
    refine ⟨hfits, ?_⟩
    have hself := hsame plain.size
    rw [if_pos le_rfl] at hself
    unfold decompress at hself
    split at hself
    · cases hself
    · next start hheader =>
      split at hself
      · cases hself
      · cases hself
      · next p hinflate =>
        split_ifs at hself with htrailer
        obtain rfl := Except.ok.inj hself
        obtain ⟨before, after, hbytes, hlength⟩ := trailerMatches_iff.1 htrailer
        have hbody := Deflate.inflate_confined hinflate
        rw [List.append_assoc] at hbytes
        have hshares : Shares data (ofList before) (8 * before.length) :=
          .of_append hbytes (by rw [Bytes.toList_ofList, List.append_nil])
        have hend : p.pos ≤ 8 * before.length := by omega
        refine ⟨ofList before, ofList after, ⟨start, p, ?_, ?_, rfl, ?_⟩, ?_⟩
        · rw [(header?_confined hheader).same _ (hshares.mono (hbody.ahead.trans hend)), hheader]
        · rw [hbody.same _ (hshares.mono hend), hinflate]
        · rw [Bytes.size_ofList, hlength]
        · exact Bytes.toList_inj (by simp [hbytes])
  · rintro ⟨hfits, front, rest, hbody, rfl⟩
    rw [hbody.decompress_eq, if_pos hfits, if_pos ⟨toList rest, by simp⟩]

/-- A member that is read under one limit is read under every limit that what it holds fits, and is
too large for the others, with anything behind it; compressed bytes are such a member. A body is
read with its own checksum and size behind it, and without them under no limit. -/
theorem limits_are_exact :
    (∀ limit data plain, decompress limit data = .ok plain →
      plain.size ≤ limit ∧ ∀ other rest, decompress other (data ++ rest) =
        if plain.size ≤ other then .ok plain else .error (.tooLarge other)) ∧
    (∀ limit plain, decompress limit (compress plain) =
      if plain.size ≤ limit then .ok plain else .error (.tooLarge limit)) ∧
    (∀ limit data plain, decompress limit data = .ok plain ↔ plain.size ≤ limit ∧
      ∃ front rest, Body front plain ∧ data = front ++ (ofList (trailer plain) ++ rest)) ∧
    ∀ front plain, Body front plain → ∀ limit tail, decompress limit (front ++ tail) =
      if plain.size ≤ limit then
        if trailer plain <+: toList tail then .ok plain else .error .corrupt
      else .error (.tooLarge limit) := by
  refine ⟨fun limit data plain h => ?_, decompress_compress, fun _ _ _ => decompress_eq_ok_iff,
    fun _ _ h => h.decompress_eq⟩
  obtain ⟨hfits, front, rest, hbody, rfl⟩ := decompress_eq_ok_iff.1 h
  refine ⟨hfits, fun other more => ?_⟩
  have htrailer : trailer plain <+: toList (ofList (trailer plain) ++ rest ++ more) :=
    ⟨toList rest ++ toList more, by simp⟩
  rw [ByteArray.append_assoc, hbody.decompress_eq, if_pos htrailer]

def letter : ByteArray := ofList [97]

def letterBody : ByteArray := ofList (magic ++ [1, 1, 0, 254, 255, 97])

theorem letter_is_read_with_its_trailer :
    decompress 1 (letterBody ++ ofList (trailer letter)) = .ok letter ∧
    decompress 0 (letterBody ++ ofList (trailer letter) ++ ofList [0]) = .error (.tooLarge 0) ∧
    Body letterBody letter ∧
    decompress 1 (letterBody ++ ofList (trailer letterBody)) = .error .corrupt := by
  have hok : decompress 1 (letterBody ++ ofList (trailer letter)) = .ok letter := by
    decide +kernel
  have hbody : Body letterBody letter := ⟨10, ⟨letter, 128⟩, by decide +kernel, rfl, rfl, rfl⟩
  obtain ⟨hother, -, -, htrailer⟩ := limits_are_exact
  refine ⟨hok, ?_, hbody, ?_⟩
  · rw [(hother 1 _ _ hok).2 0 (ofList [0])]
    exact if_neg (by decide)
  · rw [htrailer letterBody letter hbody, if_pos (by decide)]
    exact if_neg (by decide +kernel)

end

end Gzip
end Telemetry
