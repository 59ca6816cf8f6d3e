import Telemetry.Proofs.NumberText
import Telemetry.Proofs.Path
import Telemetry.Collector.Endpoint

/-! Texts in paths. A segment of a path is never the empty text, unless it is empty itself, and every
text has a segment: all of its bytes escaped, so that none of them has a meaning in a path. A target
made of such segments leads to the endpoint at its path. -/

namespace Telemetry.Http

open Bytes (toList ofList)

theorem percentDecode_ne_nil {bs : List UInt8} (h : bs ≠ []) : percentDecode bs ≠ [] := by
  obtain ⟨b, rest, rfl⟩ := List.exists_cons_of_ne_nil h
  rcases rest with _ | ⟨high, _ | ⟨low, rest⟩⟩
  · simp [percentDecode]
  · simp [percentDecode]
  · rw [percentDecode]
    split
    · cases escaped? high low <;> simp
    · simp

theorem segmentText?_empty_iff {segment : List Char} :
    segmentText? segment = some "" ↔ segment = [] := by
  constructor
  · intro h
    by_contra hne
    have hbytes : Json.utf8 (String.ofList segment) ≠ [] := by
      obtain ⟨c, cs, rfl⟩ := List.exists_cons_of_ne_nil hne
      simp [Json.utf8_eq_flatMap, String.utf8EncodeChar_ne_nil]
    unfold segmentText? String.fromUTF8? at h
    split_ifs at h with hvalid
    have hempty : ofList (percentDecode (Json.utf8 (String.ofList segment))) = ByteArray.empty :=
      congrArg String.toByteArray (Option.some.inj h)
    have hdecoded := congrArg toList hempty
    rw [Bytes.toList_ofList] at hdecoded
    exact percentDecode_ne_nil hbytes hdecoded
  · rintro rfl
    rfl

/-- A digit of an escape. -/
def hexDigit (n : ℕ) : Char := (Nat.digitChar n).toUpper

def escapeByte (b : UInt8) : List Char := ['%', hexDigit (b.toNat / 16), hexDigit (b.toNat % 16)]

/-- A text as a segment of a path. -/
def escape (s : String) : List Char := (Json.utf8 s).flatMap escapeByte

theorem hexDigit?_hexDigit : ∀ n < 16, hexDigit? (hexDigit n).toUInt8 = some n := by decide

/-- The characters of an escape are ASCII and none of those that end a segment. -/
theorem hexDigit_plain : ∀ n < 16, (hexDigit n).toNat < 128 ∧ hexDigit n ≠ '/' ∧ hexDigit n ≠ '?' ∧
    hexDigit n ≠ '#' := by
  decide

theorem plain_of_mem_escape {s : String} {c : Char} (h : c ∈ escape s) :
    c.toNat < 128 ∧ c ≠ '/' ∧ c ≠ '?' ∧ c ≠ '#' := by
  obtain ⟨b, -, hc⟩ := List.mem_flatMap.1 h
  have hb := b.toNat_lt
  simp only [escapeByte, List.mem_cons, List.not_mem_nil, or_false] at hc
  rcases hc with rfl | rfl | rfl
  · decide
  · exact hexDigit_plain _ (by omega)
  · exact hexDigit_plain _ (by omega)

theorem percentDecode_escapeByte (b : UInt8) (rest : List UInt8) :
    percentDecode ((escapeByte b).map Char.toUInt8 ++ rest) = b :: percentDecode rest := by
  have hb := b.toNat_lt
  have hbyte : escaped? (hexDigit (b.toNat / 16)).toUInt8 (hexDigit (b.toNat % 16)).toUInt8 =
      some b := by
    rw [escaped?, hexDigit?_hexDigit _ (by omega), hexDigit?_hexDigit _ (by omega)]
    show some (UInt8.ofNat (16 * (b.toNat / 16) + b.toNat % 16)) = some b
    rw [Nat.div_add_mod, UInt8.ofNat_toNat]
  have hmark : (escapeByte b).map Char.toUInt8 ++ rest = percent ::
      (hexDigit (b.toNat / 16)).toUInt8 :: (hexDigit (b.toNat % 16)).toUInt8 :: rest := rfl
  rw [hmark, percentDecode, if_pos rfl, hbyte]

theorem percentDecode_escapes (bs : List UInt8) :
    percentDecode ((bs.flatMap escapeByte).map Char.toUInt8) = bs := by
  induction bs with
  | nil => rfl
  | cons b bs ih => rw [List.flatMap_cons, List.map_append, percentDecode_escapeByte, ih]

theorem segmentText?_escape (s : String) : segmentText? (escape s) = some s := by
  have hbytes : toList (String.ofList (escape s)).toUTF8 = (escape s).map Char.toUInt8 :=
    Json.utf8_ofList fun c hc => (plain_of_mem_escape hc).1
  rw [segmentText?, hbytes, escape, percentDecode_escapes]
  exact Json.fromUTF8_utf8 s

def targetOf (segments : List (List Char)) : String :=
  String.ofList ('/' :: ['/'].intercalate segments)

theorem mem_intercalate {separator c : Char} {parts : List (List Char)}
    (h : c ∈ [separator].intercalate parts) : c = separator ∨ ∃ part ∈ parts, c ∈ part := by
  simp only [List.intercalate, List.mem_flatten] at h
  obtain ⟨piece, hpiece, hc⟩ := h
  induction parts with
  | nil => simp at hpiece
  | cons part parts ih =>
    cases parts with
    | nil => exact Or.inr ⟨part, by simp, by simp_all⟩
    | cons next parts =>
      rw [List.intersperse_cons_cons, List.mem_cons, List.mem_cons] at hpiece
      rcases hpiece with rfl | rfl | hpiece
      · exact Or.inr ⟨_, List.mem_cons_self, hc⟩
      · exact Or.inl (List.mem_singleton.1 hc)
      · obtain rfl | ⟨other, hother, hmem⟩ := ih hpiece
        · exact Or.inl rfl
        · exact Or.inr ⟨other, List.mem_cons_of_mem _ hother, hmem⟩

theorem segments?_targetOf {segments : List (List Char)} (hne : segments ≠ [])
    (h : ∀ segment ∈ segments, ∀ c ∈ segment, c ≠ '/' ∧ c ≠ '?' ∧ c ≠ '#') :
    segments? (targetOf segments) = some segments := by
  have hpath : path (targetOf segments) = '/' :: ['/'].intercalate segments := by
    rw [path, targetOf, String.toList_ofList, List.takeWhile_eq_self_iff]
    intro c hc
    rcases List.mem_cons.1 hc with rfl | hc
    · decide
    · obtain rfl | ⟨segment, hsegment, hc⟩ := mem_intercalate hc
      · decide
      · simpa using (h segment hsegment c hc).2
  rw [segments?, hpath]
  simp only [Text.splitOn_eq]
  rw [List.splitOn_intercalate '/' (fun segment hsegment hc => (h segment hsegment _ hc).1 rfl) hne]

end Telemetry.Http
