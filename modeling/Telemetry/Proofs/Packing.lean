import Telemetry.Proofs.Limit
import Telemetry.Proofs.Tokens
import Telemetry.Proofs.Trailer

/-! Packing and reading back. A block is read as the bytes that its tokens stand for, whether they
were written in a code or stored as they are; so what has been packed is read back under every limit
that it fits. -/

namespace Telemetry

open Bytes (HoldsAt toList ofList byteAt)

namespace Deflate

open List (replicate)

/-! ### Whole bytes -/

theorem lowBits_zero (n : ℕ) : lowBits n 0 = replicate n false := by
  refine List.eq_replicate_iff.2 ⟨length_lowBits n 0, fun b hb => ?_⟩
  obtain ⟨i, -, rfl⟩ := List.mem_map.1 hb
  exact Nat.zero_testBit i

theorem lowBits_inj {n u v : ℕ} (hu : u < 2 ^ n) (hv : v < 2 ^ n)
    (h : lowBits n u = lowBits n v) : u = v := by
  refine Nat.eq_of_testBit_eq fun i => ?_
  rcases Nat.lt_or_ge i n with hi | hi
  · exact List.map_inj_left.1 h i (List.mem_range.2 hi)
  · have hpow := Nat.pow_le_pow_right Nat.two_pos hi
    rw [Nat.testBit_lt_two_pow (hu.trans_le hpow), Nat.testBit_lt_two_pow (hv.trans_le hpow)]

theorem prefix_of_bitsOf {bs cs : List UInt8} {rest : List Bool}
    (h : bitsOf cs = bitsOf bs ++ rest) : bs <+: cs := by
  induction bs generalizing cs with
  | nil => exact List.nil_prefix
  | cons b bs ih =>
    cases cs with
    | nil => simp [bitsOf, lowBits] at h
    | cons c cs =>
      simp only [bitsOf, List.flatMap_cons, List.append_assoc] at h
      obtain ⟨hbyte, hrest⟩ := List.append_inj h (by simp)
      obtain rfl := UInt8.toNat_inj.1 (lowBits_inj c.toNat_lt b.toNat_lt hbyte)
      exact List.cons_prefix_cons.2 ⟨rfl, ih hrest⟩

theorem BitsAt.holdsAt {data : ByteArray} {i : ℕ} {bs : List UInt8}
    (h : BitsAt data (8 * i) (bitsOf bs)) : HoldsAt data i bs := by
  have hfits := h.fits
  obtain ⟨before, after, hdata, hbefore⟩ := h
  rw [← List.take_append_drop i (toList data), bitsOf_append, List.append_assoc] at hdata
  rw [length_bitsOf, Bytes.size_eq_length] at hfits
  have hlength : ((toList data).take i).length = i := by
    rw [List.length_take]
    omega
  obtain ⟨rest, hrest⟩ := prefix_of_bitsOf
    (List.append_inj hdata (by rw [length_bitsOf, hlength, hbefore])).2
  exact ⟨(toList data).take i, rest, by rw [List.append_assoc, hrest, List.take_append_drop],
    hlength⟩

theorem copyFrom_eq {data : ByteArray} {i : ℕ} {bs : List UInt8} (h : HoldsAt data i bs)
    (out : ByteArray) : copyFrom data i bs.length out = out ++ ofList bs := by
  induction bs generalizing i out with
  | nil => exact Bytes.toList_inj (by simp [copyFrom])
  | cons b bs ih =>
    rw [List.length_cons, copyFrom, h.head, ih h.tail]
    exact Bytes.toList_inj (by simp)

namespace BitWriter

variable {w : BitWriter}

theorem length_bits (w : BitWriter) : w.bits.length = 8 * w.out.size + w.count := by
  rw [bits, List.length_append, length_bitsOf, length_lowBits, Bytes.size_eq_length]

theorem pad_eq (hw : w.Tidy) : ∃ k < 8, w.pad.Tidy ∧ w.pad.count = 0 ∧
    w.pad.bits = w.bits ++ replicate k false := by
  rw [pad]
  split_ifs with hcount
  · exact ⟨0, by decide, hw, hcount, by simp⟩
  · have hlt := hw.count
    obtain ⟨htidy, hbits⟩ := writes_put (n := 8 - w.count) (v := 0) w (by omega)
      (Nat.two_pow_pos _) hw
    rw [lowBits_zero] at hbits
    have hlength := congrArg List.length hbits
    have hlt' := htidy.count
    rw [List.length_append, length_bits, length_bits, List.length_replicate] at hlength
    exact ⟨8 - w.count, by omega, htidy, by omega, hbits⟩

end BitWriter

/-! ### Blocks as they are -/

def storedBits (k : ℕ) (bytes : List UInt8) : List Bool :=
  lowBits 2 0 ++ replicate k false ++ lowBits 16 bytes.length ++
    lowBits 16 (0xffff - bytes.length) ++ bitsOf bytes

section

variable {data plain : ByteArray} {w : BitWriter} {b : Block}

theorem Block.length_bytes (hends : b.start + b.size ≤ plain.size) :
    (toList (plain.extract b.start (b.start + b.size))).length = b.size := by
  rw [← Bytes.size_eq_length, ByteArray.size_extract]
  omega

theorem BitWriter.putStored_eq (hw : w.Tidy) (hsize : b.size ≤ 0xffff)
    (hends : b.start + b.size ≤ plain.size) : ∃ k < 8, (w.bits.length + 2 + k) % 8 = 0 ∧
      (w.putStored plain b).Tidy ∧ (w.putStored plain b).bits =
        w.bits ++ storedBits k (toList (plain.extract b.start (b.start + b.size))) := by
  have hlength := Block.length_bytes hends
  obtain ⟨htidy, htype⟩ := writes_put (n := 2) (v := 0) w (by decide) (by decide) hw
  obtain ⟨k, hk, htidy, hcount, hpad⟩ := pad_eq htidy
  obtain ⟨htidy, hnumbers⟩ := ((writes_put (n := 16) (v := b.size) _ (by decide)
    (Nat.lt_succ_of_le hsize)).trans (writes_put (n := 16) (v := 0xffff - b.size) _ (by decide)
      (Nat.lt_succ_of_le (Nat.sub_le _ _)))) htidy
  have haligned := length_bits (w.put 2 0).pad
  have hlengths := congrArg List.length hnumbers
  have hlt := htidy.count
  rw [hcount, hpad, htype] at haligned
  rw [hpad, htype, length_bits] at hlengths
  simp only [List.length_append, List.length_replicate, length_lowBits] at haligned hlengths
  rw [putStored]
  generalize ((w.put 2 0).pad.put 16 b.size).put 16 (0xffff - b.size) = w' at *
  have hnone : w'.count = 0 := by omega
  refine ⟨k, hk, by omega, ⟨htidy.value, htidy.count⟩, ?_⟩
  have hwhole (more : ByteArray) :
      bits { w' with out := w'.out ++ more } = w'.bits ++ bitsOf (toList more) := by
    simp [bits, hnone, lowBits]
  rw [hwhole, hnumbers, hpad, htype, storedBits, hlength]
  simp only [List.append_assoc]

theorem storedBlock_eq {pos k limit : ℕ} (hk : k < 8) (haligned : (pos + 2 + k) % 8 = 0)
    (hsize : b.size ≤ 0xffff) (hends : b.start + b.size ≤ plain.size) (hlimit : plain.size ≤ limit)
    (h : BitsAt data pos (storedBits k (toList (plain.extract b.start (b.start + b.size))))) :
    storedBlock data limit (pos + 2) (plain.extract 0 b.start) =
      .ok ⟨plain.extract 0 (b.start + b.size), pos +
        (storedBits k (toList (plain.extract b.start (b.start + b.size)))).length⟩ := by
  have hlength := Block.length_bytes hends
  have hfits := h.fits
  obtain ⟨start, hstart⟩ : ∃ start, pos + 2 + k = 8 * start :=
    ⟨(pos + 2 + k) / 8, (Nat.mul_div_cancel' (Nat.dvd_of_mod_eq_zero haligned)).symm⟩
  have hplace : (pos + 2 + 7) / 8 = start := by omega
  simp only [storedBits, hlength, List.length_append, List.length_replicate, length_lowBits,
    length_bitsOf] at h hfits ⊢
  have hnumber := h.left.left.right
  have hcheck := h.left.right
  have hbytes := h.right
  simp only [List.length_append, List.length_replicate, length_lowBits, ← Nat.add_assoc, hstart]
    at hnumber hcheck hbytes
  have hnumber := hnumber.bits?_eq (Nat.lt_succ_of_le hsize)
  have hcheck := hcheck.bits?_eq (Nat.lt_succ_of_le (Nat.sub_le _ _))
  rw [show 8 * start + 16 + 16 = 8 * (start + 4) by omega] at hbytes
  have hcopy := copyFrom_eq hbytes.holdsAt (plain.extract 0 b.start)
  rw [hlength, Bytes.ofList_toList] at hcopy
  have hjoin : plain.extract 0 b.start ++ plain.extract b.start (b.start + b.size) =
      plain.extract 0 (b.start + b.size) := by
    rw [ByteArray.extract_append_extract, Nat.zero_min, Nat.max_eq_right (Nat.le_add_right _ _)]
  rw [storedBlock, hplace, hnumber, hcheck]
  simp only [size_take (Nat.le_of_add_right_le hends), hcopy, hjoin]
  rw [if_neg (by omega), if_neg (by omega), if_neg (by omega)]
  congr 2
  omega

/-! ### Blocks in a code -/

theorem coded_fixedLengths : Coded fixedLengths (List.range 288) where
  fits := ⟨by decide +kernel, by decide +kernel⟩
  usable := by decide +kernel
  words := by
    intro s hs
    have hall : ∀ n ∈ fixedLengths, n ≠ 0 := by decide +kernel
    have hlength : fixedLengths.length = 288 := by decide +kernel
    rw [List.getD_eq_getElem _ _ (by rw [hlength]; exact List.mem_range.1 hs)]
    exact hall _ (List.getElem_mem _)

theorem coded_fixedDistances : Coded (replicate 32 5) (List.range 30) where
  fits := ⟨by decide +kernel, by decide +kernel⟩
  usable := by decide +kernel
  words := by decide +kernel

theorem Coded.mono {lengths symbols symbols' : List ℕ} (h : Coded lengths symbols)
    (hsub : symbols' ⊆ symbols) : Coded lengths symbols' :=
  ⟨h.fits, h.usable, fun s hs => h.words s (hsub hs)⟩

theorem Token.StandsAt.symbol_lt {i : ℕ} {t : Token} (h : t.StandsAt plain i) :
    t.symbol < 286 ∧ ∀ s ∈ t.distanceSymbol?, s < 30 := by
  cases t with
  | literal byte => exact ⟨byte.toNat_lt.trans (by decide), by simp [distanceSymbol?]⟩
  | repetition length distance =>
    have hlength := (HasRow.extra_le.1 (hasRow_length h.least h.most)).1
    have hdistance := (HasRow.extra_le.2 (hasRow_distance h.back h.reach)).1
    refine ⟨?_, ?_⟩
    · rw [symbol]
      omega
    · simpa [distanceSymbol?] using hdistance

def codesOf (b : Block) : List ℕ × List ℕ :=
  if b.size < 48 then (fixedLengths, replicate 32 5) else lengthsOf b.tokens

/-- The bits of a block in a code, behind the one that tells whether it is the last. -/
def codedBits (b : Block) : List Bool :=
  (if b.size < 48 then lowBits 2 1 else lowBits 2 2 ++ codesBits (codesOf b).1 (codesOf b).2) ++
    tokensBits (codesOf b).1 (codesOf b).2 b.tokens.toList

theorem coded_trimmed {n : ℕ} (least : ℕ) {symbols : Array ℕ} (hroom : n ≤ 2 ^ 15) (hleast : least ≤ n)
    (hsymbols : ∀ s ∈ symbols, s < n) :
    Coded (trimmed least (lengthsFor 15 (occurrences n symbols))) symbols.toList ∧
    least ≤ (trimmed least (lengthsFor 15 (occurrences n symbols))).length ∧
    (trimmed least (lengthsFor 15 (occurrences n symbols))).length ≤ n := by
  have hlength : (lengthsFor 15 (occurrences n symbols)).length = n := by
    rw [lengthsFor, List.length_map, List.length_range, length_occurrences]
  have hbounds := length_trimmed (hleast.trans_eq hlength.symm)
  rw [hlength] at hbounds
  exact ⟨(coded_lengthsFor symbols (by decide) le_rfl hroom hsymbols).trimmed least, hbounds⟩

theorem Block.Sound.announced (hb : b.Sound plain) :
    Announced (lengthsOf b.tokens).1 (lengthsOf b.tokens).2 ∧
    Coded (lengthsOf b.tokens).1 (256 :: b.tokens.toList.map Token.symbol) ∧
    Coded (lengthsOf b.tokens).2 (b.tokens.toList.filterMap Token.distanceSymbol?) := by
  have hsymbols : ∀ s ∈ (b.tokens.map Token.symbol).push 256, s < 286 := by
    intro s hs
    rcases Array.mem_push.1 hs with hs | rfl
    · obtain ⟨t, ht, rfl⟩ := Array.mem_map.1 hs
      obtain ⟨i, hi⟩ := hb.covers.forall_standsAt t (Array.mem_toList_iff.2 ht)
      exact hi.symbol_lt.1
    · decide
  have hdistances : ∀ s ∈ b.tokens.filterMap Token.distanceSymbol?, s < 30 := by
    intro s hs
    obtain ⟨t, ht, hsymbol⟩ := Array.mem_filterMap.1 hs
    obtain ⟨i, hi⟩ := hb.covers.forall_standsAt t (Array.mem_toList_iff.2 ht)
    exact hi.symbol_lt.2 s hsymbol
  obtain ⟨hcoded, hleast, hmost⟩ := coded_trimmed 257 (by decide) (by decide) hsymbols
  obtain ⟨hcoded', hleast', hmost'⟩ := coded_trimmed 1 (by decide) (by decide) hdistances
  have hends : 256 :: b.tokens.toList.map Token.symbol ⊆
      ((b.tokens.map Token.symbol).push 256).toList := by simp
  rw [Array.toList_filterMap] at hcoded'
  simp only [lengthsOf]
  exact ⟨⟨(hcoded.mono hends).mono (by simp), hcoded'.mono (by simp), hleast, hmost, hleast',
    hmost'⟩, hcoded.mono hends, hcoded'⟩

theorem Block.Sound.coded (hb : b.Sound plain) :
    Coded (codesOf b).1 (256 :: b.tokens.toList.map Token.symbol) ∧
    Coded (codesOf b).2 (b.tokens.toList.filterMap Token.distanceSymbol?) := by
  rw [codesOf]
  split_ifs
  · refine ⟨coded_fixedLengths.mono fun s hs => ?_, coded_fixedDistances.mono fun s hs => ?_⟩
    · rw [List.mem_range]
      rcases List.mem_cons.1 hs with rfl | hs
      · decide
      · obtain ⟨t, ht, rfl⟩ := List.mem_map.1 hs
        obtain ⟨i, hi⟩ := hb.covers.forall_standsAt t ht
        exact hi.symbol_lt.1.trans (by decide)
    · obtain ⟨t, ht, hsymbol⟩ := List.mem_filterMap.1 hs
      obtain ⟨i, hi⟩ := hb.covers.forall_standsAt t ht
      exact List.mem_range.2 (hi.symbol_lt.2 s hsymbol)
  · exact hb.announced.2

theorem Block.Sound.writes_putCoded (hb : b.Sound plain) (w : BitWriter) :
    w.Writes (w.putCoded b) (codedBits b) := by
  obtain ⟨hliterals, hdistances⟩ := hb.coded
  have htokens := hb.covers.writes_putTokens hliterals.fits hdistances.fits
  rw [BitWriter.putCoded, codedBits]
  by_cases hshort : b.size < 48
  · rw [if_pos hshort, if_pos hshort]
    rw [codesOf, if_pos hshort] at htokens ⊢
    exact (BitWriter.writes_put w (by decide) (by decide)).trans (htokens _)
  · rw [if_neg hshort, if_neg hshort]
    have hcodes := hb.announced.1.writes_putCodes
    rw [codesOf, if_neg hshort] at htokens ⊢
    generalize lengthsOf b.tokens = codes at *
    exact ((BitWriter.writes_put w (by decide) (by decide)).trans (hcodes _)).trans (htokens _)

/-- Each token takes a bit at least, and so does the end. -/
theorem length_lt_tokensBits {literals : List ℕ} {ts : List Token}
    (h : Coded literals (256 :: ts.map Token.symbol)) (distances : List ℕ) :
    ts.length < (tokensBits literals distances ts).length := by
  obtain ⟨hend, hwords⟩ := List.forall_mem_cons.1 h.words
  have htokens : ts.length ≤ (ts.flatMap (tokenBits literals distances)).length := by
    clear h
    induction ts with
    | nil => exact le_rfl
    | cons t ts ih =>
      obtain ⟨hword, hwords⟩ := List.forall_mem_cons.1 hwords
      have hfirst : literals.getD t.symbol 0 ≤ (tokenBits literals distances t).length := by
        cases t with
        | literal byte => exact (length_codeword literals byte.toNat).ge
        | repetition length distance =>
          simp only [tokenBits, List.length_append, length_codeword, Token.symbol]
          omega
      have := ih hwords
      rw [List.flatMap_cons, List.length_append, List.length_cons]
      omega
  rw [tokensBits, List.length_append, length_codeword]
  omega

variable {pos limit : ℕ}

theorem Block.Sound.block_coded (hb : b.Sound plain) (hends : b.start + b.size ≤ plain.size)
    (hlimit : plain.size ≤ limit) (h : BitsAt data pos (codedBits b)) :
    ∃ type, bits? data 2 pos = some type ∧
      block data limit type (pos + 2) (plain.extract 0 b.start) =
        .ok ⟨plain.extract 0 (b.start + b.size), pos + (codedBits b).length⟩ := by
  obtain ⟨hliterals, hdistances⟩ := hb.coded
  have hfits := h.fits
  have htokens := length_lt_tokensBits hliterals (codesOf b).2
  have hread {at' : ℕ} (hbits : BitsAt data at' (tokensBits (codesOf b).1 (codesOf b).2
      b.tokens.toList)) := hb.covers.symbols_eq (Nat.le_of_add_right_le hends) hliterals hdistances
        hbits hlimit (show b.tokens.toList.length < 8 * data.size by have := hbits.fits; omega)
  rw [codedBits] at h ⊢
  by_cases hshort : b.size < 48
  · rw [if_pos hshort] at h ⊢
    have hsymbols := hread h.right
    have hblock : block data limit 1 (pos + 2) (plain.extract 0 b.start) =
        symbols data limit (Code.ofLengths (codesOf b).1) (Code.ofLengths (codesOf b).2)
          (8 * data.size) (pos + 2) (plain.extract 0 b.start) := by
      rw [codesOf, if_pos hshort]
      rfl
    rw [length_lowBits] at hsymbols
    refine ⟨1, h.left.bits?_eq (by decide), ?_⟩
    rw [hblock, hsymbols, List.length_append, length_lowBits, Nat.add_assoc]
  · rw [if_neg hshort] at h ⊢
    have hsymbols := hread h.right
    have hown : codesOf b = lengthsOf b.tokens := if_neg hshort
    have hcodes := (hown ▸ hb.announced.1 : Announced (codesOf b).1 (codesOf b).2).codes?_eq
      h.left.right
    refine ⟨2, h.left.left.bits?_eq (by decide), ?_⟩
    rw [List.length_append, length_lowBits, ← Nat.add_assoc] at hsymbols
    rw [length_lowBits] at hcodes
    simp only [block, hcodes, hsymbols, List.length_append, length_lowBits, ← Nat.add_assoc]

/-- The bits of a block, at a place in a byte, are read as the text from `i` to `j`. -/
def ReadsAs (plain : ByteArray) (i j place : ℕ) (last : Bool) (bits : List Bool) : Prop :=
  ∀ ⦃data : ByteArray⦄ ⦃pos limit : ℕ⦄, pos % 8 = place % 8 → plain.size ≤ limit →
    BitsAt data pos bits → ∀ fuel, blocks data limit (fuel + 1) pos (plain.extract 0 i) =
      if last then .ok ⟨plain.extract 0 j, pos + bits.length⟩
      else blocks data limit fuel (pos + bits.length) (plain.extract 0 j)

/-- The bit that tells whether a block is the last, and the bits of its type and its body. -/
theorem readsAs_of_block {i j place : ℕ} {last : Bool} {bits : List Bool}
    (h : ∀ ⦃data : ByteArray⦄ ⦃pos limit : ℕ⦄, (pos + 1) % 8 = (place + 1) % 8 →
      plain.size ≤ limit → BitsAt data (pos + 1) bits →
      ∃ type, bits? data 2 (pos + 1) = some type ∧
        block data limit type (pos + 3) (plain.extract 0 i) =
          .ok ⟨plain.extract 0 j, pos + 1 + bits.length⟩) :
    ReadsAs plain i j place last (lowBits 1 last.toNat ++ bits) := by
  intro data pos limit hplace hlimit hbits fuel
  obtain ⟨type, htype, hblock⟩ := @h data pos limit (by omega) hlimit hbits.right
  have hlast := hbits.left.bits?_eq (by cases last <;> decide)
  rw [blocks, hlast, htype]
  simp only [hblock, List.length_append, length_lowBits, Nat.add_assoc]
  cases last <;> simp

/-! ### How long it gets -/

theorem length_codeword_le {lengths : List ℕ} (h : Fits lengths) (symbol : ℕ) :
    (codeword lengths symbol).length ≤ 15 := by
  rw [length_codeword, List.getD_eq_getElem?_getD]
  cases hsymbol : lengths[symbol]? with
  | none => exact Nat.zero_le _
  | some n => exact h.short n (List.mem_of_getElem? hsymbol)

/-- A byte takes no more than sixteen bits, also in a repetition. -/
theorem Token.StandsAt.length_tokenBits_le {literals distances : List ℕ} {i : ℕ} {t : Token}
    (h : t.StandsAt plain i) (hliterals : Fits literals) (hdistances : Fits distances) :
    (tokenBits literals distances t).length ≤ 16 * t.size := by
  cases t with
  | literal byte =>
    exact (length_codeword_le hliterals _).trans (by rw [size]; decide)
  | repetition length distance =>
    have hleast := h.least
    have hextra := (HasRow.extra_le.1 (hasRow_length h.least h.most)).2
    have hextra' := (HasRow.extra_le.2 (hasRow_distance h.back h.reach)).2
    have hword := length_codeword_le hliterals (257 + (rowFor lengthTable length).1)
    have hword' := length_codeword_le hdistances (rowFor distanceTable distance).1
    rw [tokenBits]
    generalize rowFor lengthTable length = row at *
    generalize rowFor distanceTable distance = row' at *
    simp only [List.length_append, length_lowBits, size]
    omega

theorem Covers.length_tokensBits_le {literals distances : List ℕ} {i j : ℕ} {ts : List Token}
    (h : Covers plain i ts j) (hliterals : Fits literals) (hdistances : Fits distances) :
    (tokensBits literals distances ts).length + 16 * i ≤ 16 * j + 15 := by
  induction ts generalizing i with
  | nil =>
    obtain rfl : i = j := h
    have := length_codeword_le hliterals 256
    rw [tokensBits, List.flatMap_nil, List.nil_append]
    omega
  | cons t ts ih =>
    have hfirst := h.1.length_tokenBits_le hliterals hdistances
    have hrest := ih h.2
    rw [tokensBits_cons, List.length_append]
    omega

theorem length_flatMap_le {α : Type} {f : α → List Bool} {c : ℕ} {l : List α}
    (h : ∀ a ∈ l, (f a).length ≤ c) : (l.flatMap f).length ≤ l.length * c := by
  induction l with
  | nil => simp
  | cons a l ih =>
    obtain ⟨ha, hl⟩ := List.forall_mem_cons.1 h
    have := ih hl
    rw [List.flatMap_cons, List.length_append, List.length_cons, Nat.succ_mul]
    omega

theorem length_codesBits_le {literals distances : List ℕ} (h : Announced literals distances) :
    (codesBits literals distances).length ≤ 7100 := by
  have hsteps := h.runs.length_le
  have hliterals := h.mostLiterals
  have hdistances := h.mostDistances
  have hgiven := (Announced.length_given literals distances).2
  have hlengths : ((givenLengths literals distances).flatMap (lowBits 3)).length ≤ _ :=
    length_flatMap_le fun n _ => (length_lowBits 3 n).le
  have hbits : ((stepsFor literals distances).flatMap
      (stepBits (stepLengths literals distances))).length ≤ _ :=
    length_flatMap_le (c := 22) fun s _ => by
      have := length_codeword_le h.steps.fits s.symbol
      have : s.moreBits ≤ 7 := by
        rw [LengthStep.moreBits]
        split_ifs <;> decide
      rw [stepBits, List.length_append, length_lowBits]
      omega
  simp only [List.length_nil, List.length_reverse, List.length_append, Nat.zero_add] at hsteps
  simp only [codesBits, List.length_append, length_lowBits]
  omega

theorem Block.Sound.length_codedBits_le (hb : b.Sound plain) :
    (codedBits b).length ≤ 16 * b.size + 7200 := by
  obtain ⟨hliterals, hdistances⟩ := hb.coded
  have htokens := hb.covers.length_tokensBits_le hliterals.fits hdistances.fits
  rw [codedBits, List.length_append]
  split_ifs with hshort
  · rw [length_lowBits]
    omega
  · have hcodes := length_codesBits_le hb.announced.1
    have hown : codesOf b = lengthsOf b.tokens := if_neg hshort
    rw [hown] at htokens ⊢
    rw [List.length_append, length_lowBits]
    omega

/-- Whichever way a block is written, it is read as the bytes it stands for. -/
theorem Block.Sound.putBlock_eq (hb : b.Sound plain) (hends : b.start + b.size ≤ plain.size)
    (hw : w.Tidy) (last : Bool) : ∃ bits, (w.putBlock plain b last).Tidy ∧
      (w.putBlock plain b last).bits = w.bits ++ bits ∧
      ReadsAs plain b.start (b.start + b.size) w.bits.length last bits ∧
      0 < bits.length ∧ bits.length ≤ 16 * b.size + 7201 := by
  obtain ⟨htidy, hlast⟩ := BitWriter.writes_put (n := 1) (v := last.toNat) w (by decide)
    (by cases last <;> decide) hw
  obtain ⟨htidy', hcoded⟩ := hb.writes_putCoded _ htidy
  have hlength := hb.length_codedBits_le
  have hplace : (w.put 1 last.toNat).bits.length = w.bits.length + 1 := by
    rw [hlast, List.length_append, length_lowBits]
  simp only [BitWriter.putBlock]
  split_ifs with hstore
  · obtain ⟨-, -, hkept⟩ := hstore
    have hshort : b.size ≤ window := hb.kept hkept
    have hsize : b.size ≤ 0xffff := hshort.trans (by decide)
    obtain ⟨k, hk, haligned, htidy'', hstored⟩ := BitWriter.putStored_eq htidy hsize hends
    refine ⟨_, htidy'', by rw [hstored, hlast, List.append_assoc], ?_, by simp, ?_⟩
    · refine readsAs_of_block fun data pos limit hmod hlimit hbits => ⟨0, ?_, ?_⟩
      · rw [storedBits] at hbits
        exact hbits.left.left.left.left.bits?_eq (by decide)
      · exact storedBlock_eq hk (by omega) hsize hends hlimit hbits
    · simp only [storedBits, List.length_append, List.length_replicate, length_lowBits,
        length_bitsOf, Block.length_bytes hends]
      omega
  · refine ⟨_, htidy', by rw [hcoded, hlast, List.append_assoc], ?_, by simp, ?_⟩
    · exact readsAs_of_block fun data pos limit _ hlimit hbits =>
        hb.block_coded hends hlimit hbits
    · rw [List.length_append, length_lowBits]
      omega

/-! ### All blocks -/

theorem Tiles.le {i j : ℕ} {bs : List Block} (h : Tiles plain i bs j) : i ≤ j := by
  induction bs generalizing i with
  | nil => exact Nat.le_of_eq h
  | cons b bs ih => exact Nat.le_of_add_right_le (ih h.2.2)

/-- Writes blocks behind one another, with `left` of them left. -/
def putBlocks (plain : ByteArray) (bs : List Block) (w : BitWriter) (left : ℕ) : BitWriter :=
  (bs.foldl (fun (w, left) b => (w.putBlock plain b (left == 1), left - 1)) (w, left)).1

theorem Tiles.putBlocks_eq {i j : ℕ} {bs : List Block} (hbs : bs ≠ []) (h : Tiles plain i bs j)
    (hj : j ≤ plain.size) (hw : w.Tidy) :
    ∃ bits, (putBlocks plain bs w bs.length).Tidy ∧
      (putBlocks plain bs w bs.length).bits = w.bits ++ bits ∧
      bs.length ≤ bits.length ∧ bits.length + 16 * i ≤ 16 * j + 7201 * bs.length ∧
      ∀ ⦃data : ByteArray⦄ ⦃pos limit fuel : ℕ⦄, pos % 8 = w.bits.length % 8 →
        plain.size ≤ limit → bs.length ≤ fuel → BitsAt data pos bits →
        blocks data limit fuel pos (plain.extract 0 i) =
          .ok ⟨plain.extract 0 j, pos + bits.length⟩ := by
  induction bs generalizing i w with
  | nil => exact absurd rfl hbs
  | cons b bs ih =>
    obtain ⟨rfl, hb, hrest⟩ := h
    have hends : b.start + b.size ≤ plain.size := hrest.le.trans hj
    obtain ⟨bits, htidy, hbits, hread, hpos, hsize⟩ := hb.putBlock_eq hends hw
      (bs.length + 1 == 1)
    have hput : putBlocks plain (b :: bs) w (b :: bs).length =
        putBlocks plain bs (w.putBlock plain b (bs.length + 1 == 1)) bs.length := rfl
    rw [hput]
    cases bs with
    | nil =>
      obtain rfl : b.start + b.size = j := hrest
      refine ⟨bits, htidy, hbits, hpos, ?_, fun data pos limit fuel hplace hlimit hfuel h => ?_⟩
      · simp only [List.length_cons, List.length_nil]
        omega
      · obtain ⟨fuel, rfl⟩ := Nat.exists_eq_succ_of_ne_zero (Nat.ne_zero_of_lt hfuel)
        exact hread hplace hlimit h fuel
    | cons b' bs =>
      obtain ⟨bits', htidy', hbits', hpos', hsize', hread'⟩ := ih (List.cons_ne_nil b' bs) hrest
        htidy
      refine ⟨bits ++ bits', htidy', by rw [hbits', hbits, List.append_assoc], ?_, ?_,
        fun data pos limit fuel hplace hlimit hfuel h => ?_⟩
      · rw [List.length_append, List.length_cons]
        omega
      · have hcount : (b :: b' :: bs).length = (b' :: bs).length + 1 := rfl
        rw [List.length_append, hcount]
        omega
      · obtain ⟨fuel, rfl⟩ := Nat.exists_eq_succ_of_ne_zero (Nat.ne_zero_of_lt hfuel)
        have hplace' : (pos + bits.length) % 8 =
            (w.putBlock plain b (List.length (b' :: bs) + 1 == 1)).bits.length % 8 := by
          rw [hbits, List.length_append]
          omega
        rw [hread hplace hlimit h.left fuel, if_neg (by simp),
          hread' hplace' hlimit (Nat.le_of_succ_le_succ hfuel) h.right, List.length_append,
          Nat.add_assoc]

theorem Tiles.length_le {i j : ℕ} {bs : List Block} (h : Tiles plain i bs j)
    (hlong : ∀ b ∈ bs.dropLast, 31 * 1024 < b.size) : 31 * 1024 * (bs.length - 1) + i ≤ j := by
  induction bs generalizing i with
  | nil => exact (Nat.zero_add i).trans_le (Nat.le_of_eq h)
  | cons b bs ih =>
    cases bs with
    | nil => exact (Nat.zero_add i).trans_le (Tiles.le h)
    | cons b' bs =>
      rw [List.dropLast_cons_of_ne_nil (List.cons_ne_nil b' bs), List.forall_mem_cons] at hlong
      have := ih h.2.2 hlong.2
      simp only [List.length_cons] at this ⊢
      omega

end

/-- What is packed are the bits of all blocks and less than a byte behind them. -/
theorem exists_bits_deflate (plain : ByteArray) : ∃ bits, ∃ k < 8,
    bitsOf (toList (deflate plain)) = bits ++ replicate k false ∧
      bits.length ≤ 24 * plain.size + 7201 ∧
      ∀ ⦃data : ByteArray⦄ ⦃n limit : ℕ⦄, plain.size ≤ limit → BitsAt data (8 * n) bits →
        inflate data limit (8 * n) = .ok ⟨plain, 8 * n + bits.length⟩ := by
  obtain ⟨htiles, hlong⟩ := tiles_blocksOf plain
  have hcount := htiles.length_le hlong
  obtain ⟨bits, htidy, hbits, hmany, hsize, hread⟩ := htiles.putBlocks_eq (blocksOf_ne_nil plain)
    le_rfl BitWriter.tidy_empty
  obtain ⟨k, hk, -, hnone, hpad⟩ := BitWriter.pad_eq htidy
  have hdeflate : deflate plain = (putBlocks plain (blocksOf plain).toList .empty
      (blocksOf plain).toList.length).pad.out := by
    rw [deflate, putBlocks, Array.length_toList]
    simp only [← Array.foldl_toList]
    rfl
  have hempty : BitWriter.empty.bits = [] := rfl
  rw [hbits, hempty, List.nil_append, BitWriter.bits, hnone, ← hdeflate] at hpad
  refine ⟨bits, k, hk, by simpa [lowBits] using hpad, by omega, fun data n limit hlimit h => ?_⟩
  have hfuel := h.fits
  have hstart : plain.extract 0 0 = ByteArray.empty := Bytes.toList_inj (by simp [Bytes.toList])
  have hall := hread (by rw [hempty]; simp) hlimit
    (show (blocksOf plain).toList.length ≤ 8 * data.size by omega) h
  rwa [hstart, ByteArray.extract_zero_size] at hall

theorem inflate_deflate {data plain : ByteArray} {n limit : ℕ}
    (h : HoldsAt data n (toList (deflate plain))) (hlimit : plain.size ≤ limit) :
    ∃ pos, inflate data limit (8 * n) = .ok ⟨plain, pos⟩ ∧
      (pos + 7) / 8 = n + (deflate plain).size := by
  obtain ⟨bits, k, hk, hbits, -, hread⟩ := exists_bits_deflate plain
  have hlength := congrArg List.length hbits
  have hall := BitsAt.of_holdsAt h
  rw [hbits] at hall
  rw [length_bitsOf, ← Bytes.size_eq_length, List.length_append, List.length_replicate] at hlength
  exact ⟨_, hread hlimit hall.left, by omega⟩

theorem size_deflate_le (plain : ByteArray) : (deflate plain).size ≤ 3 * plain.size + 1000 := by
  obtain ⟨bits, k, hk, hbits, hsize, -⟩ := exists_bits_deflate plain
  have hlength := congrArg List.length hbits
  rw [length_bitsOf, ← Bytes.size_eq_length, List.length_append, List.length_replicate] at hlength
  omega

end Deflate

namespace Gzip

theorem decompress_compress_self (plain : ByteArray) :
    decompress plain.size (compress plain) = .ok plain := by
  have hbody := member_holds_body (Deflate.deflate plain) plain
  have htrailer := trailerMatches_member (Deflate.deflate plain) plain
  obtain ⟨pos, hinflate, hend⟩ := Deflate.inflate_deflate hbody le_rfl
  rw [decompress, compress, header?_magic (member_holds_magic _ _)]
  simp only [hinflate, hend]
  rw [if_pos htrailer]

/-- Compressed bytes inflate to what they were under every limit that this fits, and under no
other. -/
theorem decompress_compress (limit : ℕ) (plain : ByteArray) :
    decompress limit (compress plain) =
      if plain.size ≤ limit then .ok plain else .error (.tooLarge limit) :=
  (decompress_of_ok (decompress_compress_self plain)).2 limit

theorem size_compress_le (plain : ByteArray) : (compress plain).size ≤ 3 * plain.size + 1018 := by
  have hbody := Deflate.size_deflate_le plain
  rw [Bytes.size_eq_length] at hbody
  rw [Bytes.size_eq_length, compress, toList_member]
  simp only [trailer, magic, List.length_append, List.length_cons, List.length_nil,
    Bytes.length_littleEndian]
  omega

end Gzip
end Telemetry
