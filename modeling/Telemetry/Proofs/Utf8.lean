import Mathlib.Data.String.Basic
import Telemetry.Json.Text

/-! Texts that ascend as characters ascend as bytes: of two characters the smaller one has the
smaller bytes, and its bytes never start those of the other. -/

namespace Telemetry.Json

theorem utf8_eq_flatMap (s : String) : utf8 s = s.toList.flatMap String.utf8EncodeChar := by
  have h : s.toUTF8 = (s.toList.flatMap String.utf8EncodeChar).toByteArray := by
    conv_lhs => rw [← String.ofList_toList (s := s)]
    rfl
  rw [utf8, h]
  simp

theorem utf8EncodeChar_ascii {c : Char} (h : c.toNat < 128) :
    String.utf8EncodeChar c = [c.toUInt8] := by
  rw [String.utf8EncodeChar.eq_1, ← Char.toNat, if_pos (by omega)]
  rfl

theorem utf8EncodeChar_append_lt {c d : Char} (h : c < d) (xs ys : List UInt8) :
    String.utf8EncodeChar c ++ xs < String.utf8EncodeChar d ++ ys := by
  have hlt : c.val.toNat < d.val.toNat := h
  have hmax : d.val.toNat < 0x110000 := by
    rcases d.valid with hd | hd <;> omega
  unfold String.utf8EncodeChar
  generalize c.val.toNat = v at hlt ⊢
  generalize d.val.toNat = w at hlt hmax ⊢
  -- bytes after the first hold six bits each, and the first tells how many there are
  have low (x : ℕ) : (x % 64 + 128) % 2 ^ 8 = x % 64 + 128 := by omega
  have two (x : ℕ) : (x % 32 + 192) % 2 ^ 8 = x % 32 + 192 := by omega
  have three (x : ℕ) : (x % 16 + 224) % 2 ^ 8 = x % 16 + 224 := by omega
  have four {x : ℕ} (hx : x < 0x110000) :
      (x / 262144 % 8 + 240) % 2 ^ 8 = x / 262144 + 240 := by omega
  have digits (x : ℕ) : x / 64 / 64 = x / 4096 ∧ x / 4096 / 64 = x / 262144 := by omega
  have hv := digits v
  have hw := digits w
  simp only
  split_ifs <;>
    simp only [List.cons_append, List.nil_append, List.cons_lt_cons_iff, UInt8.lt_iff_toNat_lt,
      ← UInt8.toNat_inj, UInt8.toNat_ofNat', low, two, three, four hmax, four (hlt.trans hmax)] <;>
    omega

theorem flatMap_utf8EncodeChar_lt {cs ds : List Char} (h : cs < ds) :
    cs.flatMap String.utf8EncodeChar < ds.flatMap String.utf8EncodeChar := by
  induction h with
  | @nil d ds =>
    rw [List.flatMap_nil, List.flatMap_cons]
    cases hd : String.utf8EncodeChar d with
    | nil => exact absurd hd String.utf8EncodeChar_ne_nil
    | cons b bs => exact .nil
  | rel h => exact utf8EncodeChar_append_lt h _ _
  | cons h ih => exact List.append_left_lt ih

theorem utf8_lt {s t : String} (h : s < t) : utf8 s < utf8 t := by
  rw [utf8_eq_flatMap, utf8_eq_flatMap]
  exact flatMap_utf8EncodeChar_lt (String.lt_iff_toList_lt.1 h)

end Telemetry.Json
