import Telemetry.Proofs.RecordText
import Telemetry.Proofs.Path
import Telemetry.Backup.Restore
import Telemetry.Backup.Save

/-! The lines of a backup. A record is one line of UTF-8 that is not blank, whatever the name in it:
line breaks inside a name are escaped. Cut at its line feeds, a backup is the list of its records. -/

namespace Telemetry

namespace Json

/-- Bytes of a text without a line feed. -/
structure OneLine (bytes : List UInt8) : Prop where
  text : ∃ s, bytes = utf8 s
  unbroken : 10 ∉ bytes

theorem utf8_append (s t : String) : utf8 (s ++ t) = utf8 s ++ utf8 t := by
  simp [utf8]

/-- A byte that is a character by itself, and no control character. -/
def Visible (b : UInt8) : Prop := 0x20 ≤ b ∧ b < 0x80

instance : DecidablePred Visible := fun b => inferInstanceAs (Decidable (0x20 ≤ b ∧ b < 0x80))

namespace OneLine

theorem nil : OneLine [] := ⟨⟨"", rfl⟩, List.not_mem_nil⟩

theorem append {xs ys : List UInt8} (hx : OneLine xs) (hy : OneLine ys) : OneLine (xs ++ ys) := by
  obtain ⟨⟨s, rfl⟩, hs⟩ := hx
  obtain ⟨⟨t, rfl⟩, ht⟩ := hy
  exact ⟨⟨s ++ t, (utf8_append s t).symm⟩, by simp [hs, ht]⟩

theorem of_visible {bytes : List UInt8} (h : ∀ b ∈ bytes, Visible b) : OneLine bytes where
  text := by
    refine ⟨String.ofList (bytes.map fun b => Char.ofNat b.toNat), ?_⟩
    rw [utf8_eq_flatMap, String.toList_ofList, List.flatMap_map]
    induction bytes with
    | nil => rfl
    | cons b bytes ih =>
      rw [List.flatMap_cons, utf8EncodeChar_ofNat (h b (by simp)).2,
        ← ih fun c hc => h c (by simp [hc])]
      rfl
  unbroken hmem := absurd (h 10 hmem).1 (by decide)

end OneLine

theorem visible_hexDigits : ∀ n < 16, Visible (hexDigits.getD n 0) := by
  decide +kernel

theorem visible_escape {b : UInt8} (hb : b < 0x80) : ∀ e ∈ escape b, Visible e := by
  have hlt := b.toNat_lt
  unfold escape
  split_ifs with h1 h2
  · simp only [Bool.or_eq_true, beq_iff_eq] at h1
    rcases h1 with rfl | rfl <;> decide +kernel
  · simpa using ⟨h2, hb⟩
  iterate 5 exact (by decide +kernel)
  · have hmark : ∀ e ∈ utf8 "\\u00", Visible e := by decide +kernel
    intro e he
    simp only [List.mem_append, List.mem_cons, List.not_mem_nil, or_false] at he
    rcases he with he | rfl | rfl
    · exact hmark e he
    · exact visible_hexDigits _ (by omega)
    · exact visible_hexDigits _ (by omega)

/-- No byte of a longer character is one of those that are escaped. -/
theorem high_of_mem_utf8EncodeChar {c : Char} (hc : 128 ≤ c.toNat) :
    ∀ b ∈ String.utf8EncodeChar c, 0x80 ≤ b := by
  have hmax : c.toNat < 0x110000 := by
    rcases c.valid with h | h
    · exact h.trans (by decide)
    · exact h.2
  intro b hb
  rw [String.utf8EncodeChar.eq_1] at hb
  have high (n : ℕ) (hn : 128 ≤ n) (hn' : n < 256) : 0x80 ≤ UInt8.ofNat n := by
    rw [UInt8.le_iff_toNat_le, UInt8.toNat_ofNat', Nat.mod_eq_of_lt hn']
    exact hn
  rw [← Char.toNat, if_neg (by omega)] at hb
  split_ifs at hb <;> simp only [List.mem_cons, List.not_mem_nil, or_false] at hb
  · rcases hb with rfl | rfl <;> exact high _ (by omega) (by omega)
  · rcases hb with rfl | rfl | rfl <;> exact high _ (by omega) (by omega)
  · rcases hb with rfl | rfl | rfl | rfl <;> exact high _ (by omega) (by omega)

theorem escape_eq_self {b : UInt8} (hb : 0x80 ≤ b) : escape b = [b] := by
  have hlt : 128 ≤ b.toNat := hb
  have hne (k : UInt8) (hk : k.toNat < 128) : (b == k) = false := by
    rw [beq_eq_false_iff_ne]
    rintro rfl
    omega
  unfold escape
  rw [hne _ (by decide), hne _ (by decide), if_neg (by decide), if_pos]
  exact UInt8.le_trans (by decide) hb

theorem oneLine_escapes (c : Char) : OneLine ((String.utf8EncodeChar c).flatMap escape) := by
  rcases Nat.lt_or_ge c.toNat 128 with hc | hc
  · have hbyte : c.toUInt8 < 0x80 := by
      rw [UInt8.lt_iff_toNat_lt, Char.toUInt8, UInt32.toNat_toUInt8, ← Char.toNat]
      exact (Nat.mod_le _ _).trans_lt hc
    rw [utf8EncodeChar_ascii hc]
    exact .of_visible (by simpa using visible_escape hbyte)
  · have hhigh := high_of_mem_utf8EncodeChar hc
    have hplain : (String.utf8EncodeChar c).flatMap escape = String.utf8EncodeChar c := by
      rw [List.flatMap_congr fun b hb => escape_eq_self (hhigh b hb)]
      exact List.flatMap_singleton' _
    rw [hplain]
    refine ⟨⟨String.ofList [c], by simp [utf8_eq_flatMap]⟩, fun h => absurd (hhigh 10 h) (by decide)⟩

theorem oneLine_writeText (s : String) : OneLine (writeText s) := by
  have hquote : OneLine ['"'.toUInt8] := .of_visible (by decide +kernel)
  have hbody : OneLine ((utf8 s).flatMap escape) := by
    rw [utf8_eq_flatMap]
    induction s.toList with
    | nil => exact .nil
    | cons c cs ih =>
      rw [List.flatMap_cons, List.flatMap_append]
      exact (oneLine_escapes c).append ih
  exact (hquote.append hbody).append hquote

theorem visible_digit {c : Char} (hc : c.isDigit) : Visible c.toUInt8 := by
  obtain ⟨d, hd, rfl⟩ := exists_digitChar hc
  interval_cases d <;> decide

theorem Numeral.WellFormed.visible {n : Numeral} (h : n.WellFormed) :
    ∀ b ∈ n.text.map Char.toUInt8, Visible b := by
  intro b hb
  obtain ⟨c, hc, rfl⟩ := List.mem_map.1 hb
  rcases h.mem_text hc with hdigit | hmark
  · exact visible_digit hdigit
  · simp only [List.mem_cons, List.not_mem_nil, or_false] at hmark
    rcases hmark with rfl | rfl | rfl | rfl <;> decide

theorem oneLine_writeReal (x : Real64) : OneLine (writeReal x) := by
  unfold writeReal
  split
  · obtain ⟨n, hn, htext, -⟩ := exists_numeral numberStyle x
    rw [← htext]
    exact .of_visible hn.visible
  · exact .of_visible (by decide +kernel)

theorem oneLine_writeInt (i : ℤ) : OneLine (writeInt i) := by
  obtain ⟨n, hn, htext, -⟩ := exists_numeral_int i
  rw [← htext]
  exact .of_visible hn.visible

end Json

namespace Text

theorem splitFrom_line {line : List UInt8} (h : 10 ∉ line) (part rest : List UInt8) :
    splitFrom 10 part (line ++ 10 :: rest) = (part.reverse ++ line) :: splitFrom 10 [] rest := by
  induction line generalizing part with
  | nil => simp [splitFrom]
  | cons b line ih =>
    rw [List.cons_append, splitFrom, if_neg (by grind), ih (by grind)]
    simp

theorem chomp_eq_self {line : List UInt8} (h : line.getLast? ≠ some 13) : chomp 13 line = line := by
  unfold chomp
  split
  · next hnil => simpa using hnil.symm
  · next c cs hcons =>
    rw [List.getLast?_eq_head?_reverse, hcons] at h
    rw [if_neg (by simpa using h)]

/-- Lines that hold no line feed and end in no carriage return, each with a line feed behind it. -/
theorem lineBytes_flatMap {lines : List (List UInt8)} (hfeed : ∀ l ∈ lines, 10 ∉ l)
    (hreturn : ∀ l ∈ lines, l.getLast? ≠ some 13) :
    lineBytes (lines.flatMap (· ++ [10])) = lines := by
  have hsplit : splitOn 10 (lines.flatMap (· ++ [10])) = lines ++ [[]] := by
    induction lines with
    | nil => rfl
    | cons l lines ih =>
      rw [List.flatMap_cons, List.append_assoc, splitOn, List.singleton_append,
        splitFrom_line (hfeed l (by simp)), ← splitOn, ih (fun m hm => hfeed m (by simp [hm]))
          (fun m hm => hreturn m (by simp [hm]))]
      rfl
  unfold lineBytes linesWith
  simp only [hsplit, List.dropLast_concat, List.getLast?_concat]
  rw [List.map_congr_left fun l hl => chomp_eq_self (hreturn l hl), List.map_id']

end Text

namespace Record

theorem exists_write_eq (r : Record) :
    ∃ rest, Json.OneLine rest ∧ r.write = '\x7b'.toUInt8 :: rest := by
  obtain ⟨id, type, value, delta⟩ := r
  have hvalue : Json.OneLine
      (value.elim [] fun x => Json.utf8 ",\"value\":" ++ Json.writeReal x) := by
    cases value with
    | none => exact .nil
    | some x => exact (Json.OneLine.of_visible (by decide +kernel)).append (Json.oneLine_writeReal x)
  have hdelta : Json.OneLine
      (delta.elim [] fun n => Json.utf8 ",\"delta\":" ++ Json.writeInt n.toInt) := by
    cases delta with
    | none => exact .nil
    | some n => exact (Json.OneLine.of_visible (by decide +kernel)).append (Json.oneLine_writeInt _)
  have hid : Json.OneLine (Json.utf8 "\"id\":") := .of_visible (by decide +kernel)
  have htype : Json.OneLine (Json.utf8 ",\"type\":") := .of_visible (by decide +kernel)
  have hend : Json.OneLine (Json.utf8 "\x7d") := .of_visible (by decide +kernel)
  refine ⟨_, (((((hid.append (Json.oneLine_writeText id)).append htype).append
    (Json.oneLine_writeText type)).append hvalue).append hdelta).append hend, ?_⟩
  cases value <;> cases delta <;> rfl

theorem oneLine_write (r : Record) : Json.OneLine r.write := by
  obtain ⟨rest, hrest, hwrite⟩ := r.exists_write_eq
  have hbrace : Json.OneLine ['\x7b'.toUInt8] := .of_visible (by decide +kernel)
  rw [hwrite]
  exact hbrace.append hrest

theorem getLast_write (r : Record) : r.write.getLast? = some '\x7d'.toUInt8 := by
  have hend : Json.utf8 "\x7d" = ['\x7d'.toUInt8] := rfl
  rw [write, hend, List.getLast?_concat]

end Record
end Telemetry
