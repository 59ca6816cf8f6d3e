import Telemetry.Proofs.NumberText
import Telemetry.Collector.Page

/-! The page read back. A reader takes the table apart at its markup and the entities in the cells for
what they stand for. No angle bracket of the page comes from a name or a value, so the reader gets the
rows of the metrics, one a metric and in their order. -/

namespace Telemetry.Collector.Page

/-- The texts in the three cells of a row. -/
structure Row where
  name : String
  kind : String
  text : String
deriving DecidableEq

def Row.ofMetric (m : Metric) : Row := ⟨m.name, m.kind.name, m.value.text⟩

/-- The characters that entities stand for. -/
def unescape : List Char → List Char
  | '&' :: 'a' :: 'm' :: 'p' :: ';' :: cs => '&' :: unescape cs
  | '&' :: 'l' :: 't' :: ';' :: cs => '<' :: unescape cs
  | '&' :: 'g' :: 't' :: ';' :: cs => '>' :: unescape cs
  | '&' :: 'q' :: 'u' :: 'o' :: 't' :: ';' :: cs => '"' :: unescape cs
  | '&' :: '#' :: '3' :: '9' :: ';' :: cs => '\'' :: unescape cs
  | c :: cs => c :: unescape cs
  | [] => []

def cell? (cs : List Char) : Option (String × List Char) := do
  let (text, rest) := (← "<td>".toList.isPrefixOf? cs).span (· ≠ '<')
  some (String.ofList (unescape text), ← "</td>".toList.isPrefixOf? rest)

def row? (cs : List Char) : Option (Row × List Char) := do
  let (name, cs) ← cell? (← "<tr>".toList.isPrefixOf? cs)
  let (kind, cs) ← cell? cs
  let (text, cs) ← cell? cs
  some (⟨name, kind, text⟩, ← "</tr>\n".toList.isPrefixOf? cs)

/-- Rows up to the end of the page. -/
def rowsFrom? : ℕ → List Char → Option (List Row)
  | 0, _ => none
  | fuel + 1, cs =>
    match row? cs with
    | some (row, rest) => do some (row :: (← rowsFrom? fuel rest))
    | none => if cs = bottom then some [] else none

def rowsBehind? (header cs : List Char) : Option (List Row) :=
  (header.isPrefixOf? cs).bind (rowsFrom? cs.length)

def rows? (page : String) : Option (List Row) := rowsBehind? top page.toList

theorem isPrefixOf?_append (xs ys : List Char) : xs.isPrefixOf? (xs ++ ys) = some ys := by
  induction xs with
  | nil => rfl
  | cons x xs ih => simp [List.isPrefixOf?, ih]

theorem unescape_cons {c : Char} (hc : c ≠ '&') (cs : List Char) :
    unescape (c :: cs) = c :: unescape cs := by
  conv_lhs => unfold unescape
  split <;> simp_all

theorem unescape_eq_self {cs : List Char} (h : '&' ∉ cs) : unescape cs = cs := by
  induction cs with
  | nil => rfl
  | cons c cs ih =>
    rw [List.mem_cons, not_or] at h
    rw [unescape_cons (Ne.symm h.1), ih h.2]

theorem unescape_escapeChar (c : Char) (cs : List Char) :
    unescape (escapeChar c ++ cs) = c :: unescape cs := by
  unfold escapeChar
  split
  all_goals first | rfl | exact unescape_cons (by assumption) cs

theorem unescape_escape (cs : List Char) : unescape (escape cs) = cs := by
  induction cs with
  | nil => rfl
  | cons c cs ih =>
    have hcons : escape (c :: cs) = escapeChar c ++ escape cs := rfl
    rw [hcons, unescape_escapeChar, ih]

/-- The characters that have a meaning in the markup, entities apart. -/
def marks : List Char := ['<', '>', '"', '\'']

theorem not_mem_escape {mark : Char} (hmark : mark ∈ marks) (cs : List Char) : mark ∉ escape cs := by
  intro h
  obtain ⟨c, -, hc⟩ := List.mem_flatMap.1 h
  unfold escapeChar at hc
  split at hc
  case h_6 => simp_all [marks]
  all_goals
    fin_cases hc <;> revert hmark <;> decide

theorem mem_text {v : Value} {c : Char} (hc : c ∈ v.text.toList) :
    c.isAlphanum ∨ c ∈ ['-', '+', '.'] := by
  have hdigit {c : Char} (h : c.isDigit) : c.isAlphanum := by simp [Char.isAlphanum, h]
  have hnumeral {n : Json.Numeral} (hn : n.WellFormed) {c : Char} (h : c ∈ n.text) :
      c.isAlphanum ∨ c ∈ ['-', '+', '.'] := by
    rcases hn.mem_text h with h | h
    · exact .inl (hdigit h)
    · fin_cases h <;> decide
  rcases v with x | n
  · obtain ⟨n, hn, htext, -⟩ := Json.exists_numeral Real64.plain x
    rw [Value.text, String.toList_ofList, Real64.text] at hc
    split_ifs at hc
    · fin_cases hc <;> decide
    · rw [← htext] at hc
      exact hnumeral hn hc
    · fin_cases hc <;> decide
    · fin_cases hc <;> decide
  · rw [Value.text, Int.toString_eq_repr, Int.repr_eq_if] at hc
    split_ifs at hc
    · rw [Nat.repr_eq_ofList_toDigits, String.toList_ofList] at hc
      exact .inl (hdigit (Json.isDigit_toDigits _ c hc))
    · rw [String.toList_append, Nat.repr_eq_ofList_toDigits, String.toList_ofList,
        List.mem_append] at hc
      rcases hc with hc | hc
      · fin_cases hc
        decide
      · rw [String.toList_ofList] at hc
        exact .inl (hdigit (Json.isDigit_toDigits _ c hc))

theorem unescape_text (v : Value) : unescape v.text.toList = v.text.toList :=
  unescape_eq_self fun h => absurd (mem_text h) (by decide)

theorem cell_append (cs rest : List Char) :
    cell cs ++ rest = "<td>".toList ++ (cs ++ ("</td>".toList ++ rest)) := by
  show "<td>".toList ++ cs ++ "</td>".toList ++ rest = _
  simp only [List.append_assoc]

theorem row_append (m : Metric) (rest : List Char) :
    row m ++ rest = "<tr>".toList ++ (cell (escape m.name.toList) ++ (cell m.kind.name.toList ++
      (cell m.value.text.toList ++ ("</tr>\n".toList ++ rest)))) := by
  show "<tr>".toList ++ cell (escape m.name.toList) ++ cell m.kind.name.toList ++
    cell m.value.text.toList ++ "</tr>\n".toList ++ rest = _
  simp only [List.append_assoc]

theorem cell?_cell {raw : List Char} (h : '<' ∉ raw) (rest : List Char) :
    cell? (cell raw ++ rest) = some (String.ofList (unescape raw), rest) := by
  have hraw : ∀ c ∈ raw, decide (c ≠ '<') = true := fun c hc =>
    decide_eq_true (ne_of_mem_of_not_mem hc h)
  have hspan : (raw ++ ("</td>".toList ++ rest)).span (· ≠ '<') = (raw, "</td>".toList ++ rest) := by
    rw [List.span_eq_takeWhile_dropWhile, List.takeWhile_append_of_pos hraw,
      List.dropWhile_append_of_pos hraw]
    simp
  rw [cell_append, cell?, isPrefixOf?_append, Option.bind_eq_bind, Option.bind_some, hspan]
  simp only [isPrefixOf?_append]
  rfl

theorem cell?_name (kind : Kind) (rest : List Char) :
    cell? (cell kind.name.toList ++ rest) = some (kind.name, rest) := by
  rcases kind with _ | _ <;> rfl

theorem row?_row (m : Metric) (rest : List Char) :
    row? (row m ++ rest) = some (.ofMetric m, rest) := by
  have hbare : '<' ∉ m.value.text.toList := fun h => absurd (mem_text h) (by decide)
  have hname := cell?_cell (not_mem_escape (by simp [marks]) m.name.toList)
  have htext := cell?_cell hbare
  rw [unescape_escape, String.ofList_toList] at hname
  rw [unescape_text, String.ofList_toList] at htext
  rw [row_append, row?]
  simp only [isPrefixOf?_append, Option.bind_eq_bind, Option.bind_some, hname, cell?_name, htext]
  rfl

theorem rowsFrom?_rows {fuel : ℕ} (ms : List Metric) (hfuel : ms.length < fuel) :
    rowsFrom? fuel (ms.flatMap row ++ bottom) = some (ms.map .ofMetric) := by
  induction ms generalizing fuel with
  | nil =>
    obtain ⟨fuel, rfl⟩ := Nat.exists_eq_succ_of_ne_zero (Nat.ne_of_gt hfuel)
    rfl
  | cons m ms ih =>
    obtain ⟨fuel, rfl⟩ := Nat.exists_eq_succ_of_ne_zero (Nat.ne_of_gt (Nat.zero_lt_of_lt hfuel))
    have hrest := ih (Nat.lt_of_succ_lt_succ hfuel)
    rw [List.flatMap_cons, List.append_assoc, rowsFrom?, row?_row]
    simp only [hrest]
    rfl

theorem length_le_rows (ms : List Metric) : ms.length ≤ (ms.flatMap row).length := by
  induction ms with
  | nil => exact Nat.zero_le _
  | cons m ms ih =>
    have hrow : 0 < "<tr>".toList.length := by decide
    rw [List.flatMap_cons, row_append]
    simp only [List.length_append, List.length_cons] at ih ⊢
    omega

theorem rowsBehind?_append (header : List Char) (ms : List Metric) :
    rowsBehind? header (header ++ (ms.flatMap row ++ bottom)) = some (ms.map .ofMetric) := by
  have hfuel : ms.length < (header ++ (ms.flatMap row ++ bottom)).length := by
    have hrows := length_le_rows ms
    have hbottom : 0 < bottom.length := by decide
    simp only [List.length_append]
    omega
  rw [rowsBehind?, isPrefixOf?_append, Option.bind_some]
  exact rowsFrom?_rows ms hfuel

theorem rows?_render (ms : List Metric) : rows? (render ms) = some (ms.map .ofMetric) := by
  rw [rows?, render, String.toList_ofList, List.append_assoc]
  exact rowsBehind?_append top ms

end Telemetry.Collector.Page
