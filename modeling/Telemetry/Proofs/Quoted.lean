import Mathlib
import Telemetry.Proofs.Utf8
import Telemetry.Json.Token

/-! Strings of JSON. Whatever characters a text has, the scanner takes what is written for it as one
token, and that token is the text again: only quotes, backslashes and control bytes are escaped, and
each escape stands for the byte it was written for. -/

namespace Telemetry.Json

/-- The scanner takes the bytes as whole tokens, whatever was read before. -/
def Reads (bytes : List UInt8) (tokens : List Token) : Prop :=
  ∀ done, bytes.foldlM Scanner.step (Scanner.idle done) = some (Scanner.idle (tokens.reverse ++ done))

namespace Reads

theorem nil : Reads [] [] := fun _ => rfl

theorem append {xs ys : List UInt8} {ts us : List Token} (hx : Reads xs ts) (hy : Reads ys us) :
    Reads (xs ++ ys) (ts ++ us) := by
  intro done
  rw [List.foldlM_append, hx done, Option.bind_eq_bind, Option.bind_some, hy]
  simp

theorem scan_eq {bytes : List UInt8} {tokens : List Token} (h : Reads bytes tokens) :
    scan bytes = some tokens := by
  rw [scan, h []]
  simp [Scanner.finish?, Scanner.idle]

end Reads

/-- The piece that a byte of a text is written as. -/
def pieceOf (b : UInt8) : Piece :=
  if b < 0x20 ∧ b ∉ [8, 9, 10, 12, 13] then .unit b.toUInt16 else .byte b

/-- What is written for a text, once it is read. -/
def quoted (s : String) : Quoted := (utf8 s).map pieceOf

theorem hexDigit_hexDigits : ∀ n < 16, hexDigit? (hexDigits.getD n 0) = some n := by
  decide

theorem step_hexDigit (done : List Token) (pieces : Quoted) (digits unit : ℕ) {d : ℕ} (hd : d < 16) :
    Scanner.step ⟨done, .hex pieces digits unit⟩ (hexDigits.getD d 0) =
      if digits = 3 then some ⟨done, .string (.unit (16 * unit + d).toUInt16 :: pieces)⟩
      else some ⟨done, .hex pieces (digits + 1) (16 * unit + d)⟩ := by
  simp only [Scanner.step, hexDigit_hexDigits d hd]
  rfl

theorem foldlM_unit (done : List Token) (pieces : Quoted) (b : UInt8) :
    (utf8 "\\u00" ++ [hexDigits.getD (b.toNat / 16) 0, hexDigits.getD (b.toNat % 16) 0]).foldlM
      Scanner.step ⟨done, .string pieces⟩ = some ⟨done, .string (.unit b.toUInt16 :: pieces)⟩ := by
  have hprefix : (utf8 "\\u00").foldlM Scanner.step ⟨done, .string pieces⟩ =
      some ⟨done, .hex pieces 2 0⟩ := rfl
  have hb := b.toNat_lt
  have hunit : (16 * (16 * 0 + b.toNat / 16) + b.toNat % 16).toUInt16 = b.toUInt16 := by
    rw [Nat.mul_zero, Nat.zero_add, Nat.div_add_mod]
    exact UInt16.toNat_inj.1 (by simp)
  rw [List.foldlM_append, hprefix, Option.bind_eq_bind, Option.bind_some, List.foldlM_cons,
    step_hexDigit _ _ _ _ (by omega), if_neg (by omega), Option.bind_eq_bind, Option.bind_some,
    List.foldlM_cons, step_hexDigit _ _ _ _ (by omega), if_pos rfl, hunit]
  rfl

theorem foldlM_escape (done : List Token) (pieces : Quoted) (b : UInt8) :
    (escape b).foldlM Scanner.step ⟨done, .string pieces⟩ =
      some ⟨done, .string (pieceOf b :: pieces)⟩ := by
  unfold escape
  split_ifs with h1 h2 h3 h4 h5 h6 h7
  · simp only [Bool.or_eq_true, beq_iff_eq] at h1
    rcases h1 with rfl | rfl <;> rfl
  · have hplain : pieceOf b = .byte b := if_neg fun h => absurd h2 (UInt8.not_le.2 h.1)
    simp only [Bool.or_eq_true, not_or] at h1
    simp [Scanner.step, h1.1, h1.2, UInt8.not_lt.2 h2, hplain]
  · rw [beq_iff_eq.1 h3]; rfl
  · rw [beq_iff_eq.1 h4]; rfl
  · rw [beq_iff_eq.1 h5]; rfl
  · rw [beq_iff_eq.1 h6]; rfl
  · rw [beq_iff_eq.1 h7]; rfl
  · have hunit : pieceOf b = .unit b.toUInt16 := if_pos ⟨UInt8.not_le.1 h2, by simp_all⟩
    rw [foldlM_unit, hunit]

theorem foldlM_escapes (done : List Token) (pieces : Quoted) (bytes : List UInt8) :
    (bytes.flatMap escape).foldlM Scanner.step ⟨done, .string pieces⟩ =
      some ⟨done, .string ((bytes.map pieceOf).reverse ++ pieces)⟩ := by
  induction bytes generalizing pieces with
  | nil => rfl
  | cons b bytes ih =>
    rw [List.flatMap_cons, List.foldlM_append, foldlM_escape, Option.bind_eq_bind,
      Option.bind_some, ih]
    simp

theorem reads_writeText (s : String) : Reads (writeText s) [.string (quoted s)] := by
  intro done
  have hopen : Scanner.step (Scanner.idle done) '"'.toUInt8 = some ⟨done, .string []⟩ := rfl
  have hclose (pieces : Quoted) : Scanner.step ⟨done, .string pieces⟩ '"'.toUInt8 =
      some (Scanner.idle (.string pieces.reverse :: done)) := rfl
  rw [writeText, List.cons_append, List.foldlM_cons, hopen, Option.bind_eq_bind, Option.bind_some,
    List.foldlM_append, foldlM_escapes, Option.bind_eq_bind, Option.bind_some, List.foldlM_cons,
    hclose]
  simp [quoted]

theorem utf8EncodeChar_ofNat {b : UInt8} (hb : b < 0x80) :
    String.utf8EncodeChar (Char.ofNat b.toNat) = [b] := by
  have hlt : b.toNat < 128 := hb
  have hval : (Char.ofNat b.toNat).toNat = b.toNat := by
    rw [Char.toNat_ofNat, if_pos (Or.inl (by omega))]
  rw [String.utf8EncodeChar.eq_1, ← Char.toNat, hval, if_pos (by omega), UInt8.ofNat_toNat]

theorem pieceBytes_cons (done : List UInt8) (b : UInt8) (pieces : Quoted) :
    pieceBytes? done (pieceOf b :: pieces) = pieceBytes? (b :: done) pieces := by
  unfold pieceOf
  split_ifs with h
  · have hlt : b.toNat < 32 := h.1
    have hsmall : b.toUInt16 < 0xd800 := by
      rw [UInt16.lt_iff_toNat_lt, UInt8.toNat_toUInt16]
      exact hlt.trans (by decide)
    conv_lhs => unfold pieceBytes?
    rw [if_pos (Or.inl hsmall), UInt8.toNat_toUInt16, utf8EncodeChar_ofNat (UInt8.lt_trans h.1 (by decide))]
    rfl
  · rfl

theorem pieceBytes_map_pieceOf (done bytes : List UInt8) :
    pieceBytes? done (bytes.map pieceOf) = some (done.reverse ++ bytes) := by
  induction bytes generalizing done with
  | nil => simp [pieceBytes?]
  | cons b bytes ih =>
    rw [List.map_cons, pieceBytes_cons, ih]
    simp

theorem fromUTF8_utf8 (s : String) : String.fromUTF8? ⟨(utf8 s).toArray⟩ = some s := by
  have hbytes : (⟨(utf8 s).toArray⟩ : ByteArray) = s.toByteArray := by simp [utf8]
  rw [hbytes, String.fromUTF8?, dif_pos s.isValidUTF8]
  rfl

theorem text_quoted (s : String) : (quoted s).text? = some s := by
  simp [Quoted.text?, quoted, pieceBytes_map_pieceOf, fromUTF8_utf8]

end Telemetry.Json
