import Telemetry.Proofs.Page

/-! The markup of the page. Brackets and quotes stand only where the page itself puts them, so a
name adds no tag to it, and two pages are the same only if their rows are. -/

namespace Telemetry.Collector.Page

def markup (cs : List Char) : List Char := cs.filter (· ∈ marks)

def rowMarkup : List Char := "<><><><><><><><>".toList

/-- How often a tag stands in a text. -/
def occurrences (tag : List Char) : List Char → ℕ
  | [] => 0
  | c :: cs => (if tag.isPrefixOf (c :: cs) then 1 else 0) + occurrences tag cs

/-- The tags around a row. -/
inductive RowTag : List Char → Prop
  | opening : RowTag "<tr>".toList
  | closing : RowTag "</tr>".toList

theorem markup_append (cs ds : List Char) : markup (cs ++ ds) = markup cs ++ markup ds :=
  List.filter_append ..

theorem markup_eq_nil_iff {cs : List Char} : markup cs = [] ↔ ∀ mark ∈ marks, mark ∉ cs := by
  simp only [markup, List.filter_eq_nil_iff, decide_eq_true_eq]
  exact ⟨fun h mark hmark hc => h mark hc hmark, fun h c hc hmark => h c hmark hc⟩

/-! ### What is in the cells -/

theorem markup_escape (cs : List Char) : markup (escape cs) = [] :=
  markup_eq_nil_iff.2 fun _ hmark => not_mem_escape hmark cs

theorem markup_name (kind : Kind) : markup kind.name.toList = [] := by
  cases kind <;> rfl

theorem markup_text (v : Value) : markup v.text.toList = [] := by
  refine markup_eq_nil_iff.2 fun mark hmark h => ?_
  have hodd := mem_text h
  fin_cases hmark <;> exact absurd hodd (by decide)

theorem bracket_not_mem {cs : List Char} (h : markup cs = []) : '<' ∉ cs :=
  markup_eq_nil_iff.1 h '<' (by simp [marks])

/-! ### Rows -/

theorem markup_cell {cs : List Char} (h : markup cs = []) (rest : List Char) :
    markup (cell cs ++ rest) = "<><>".toList ++ markup rest := by
  rw [cell_append, markup_append, markup_append, markup_append, h]
  rfl

theorem markup_row (m : Metric) (rest : List Char) :
    markup (row m ++ rest) = rowMarkup ++ markup rest := by
  rw [row_append, markup_append, markup_cell (markup_escape _), markup_cell (markup_name _),
    markup_cell (markup_text _), markup_append]
  rfl

theorem markup_rows (ms : List Metric) (rest : List Char) : markup (ms.flatMap row ++ rest) =
    (List.replicate ms.length rowMarkup).flatten ++ markup rest := by
  induction ms with
  | nil => rfl
  | cons m ms ih =>
    rw [List.flatMap_cons, List.append_assoc, markup_row, ih, List.length_cons,
      List.replicate_succ, List.flatten_cons, List.append_assoc]

section

variable {tag : List Char}

theorem occurrences_append (htag : RowTag tag) {raw : List Char} (hraw : '<' ∉ raw)
    (rest : List Char) : occurrences tag (raw ++ rest) = occurrences tag rest := by
  induction raw with
  | nil => rfl
  | cons c raw ih =>
    rw [List.mem_cons, not_or] at hraw
    have hnone : tag.isPrefixOf (c :: (raw ++ rest)) = false := by
      cases htag <;> simp [List.isPrefixOf, hraw.1]
    rw [List.cons_append, occurrences, hnone, if_neg Bool.false_ne_true, Nat.zero_add, ih hraw.2]

theorem isPrefixOf_append_cons {c : Char} {tag : List Char} (hc : c ∉ tag) (cs rest : List Char) :
    tag.isPrefixOf (cs ++ c :: rest) = tag.isPrefixOf cs := by
  induction tag generalizing cs with
  | nil => rfl
  | cons t tag ih =>
    rw [List.mem_cons, not_or] at hc
    rcases cs with _ | ⟨d, cs⟩
    · simp [List.isPrefixOf, Ne.symm hc.1]
    · rw [List.cons_append, List.isPrefixOf, List.isPrefixOf, ih hc.2]

/-- No tag goes over a line break. -/
theorem occurrences_append_break (htag : RowTag tag) (cs rest : List Char) :
    occurrences tag (cs ++ '\n' :: rest) = occurrences tag cs + occurrences tag rest := by
  have hbreak : '\n' ∉ tag := by cases htag <;> decide
  induction cs with
  | nil => cases htag <;> simp [occurrences]
  | cons c cs ih =>
    rw [List.cons_append, occurrences, occurrences, ← List.cons_append,
      isPrefixOf_append_cons hbreak, ih, Nat.add_assoc]

theorem occurrences_cell (htag : RowTag tag) {raw : List Char} (h : markup raw = [])
    (rest : List Char) : occurrences tag (cell raw ++ rest) = occurrences tag rest := by
  have hopen (rest : List Char) :
      occurrences tag ("<td>".toList ++ rest) = occurrences tag rest := by
    cases htag <;> simp [occurrences, List.isPrefixOf]
  have hclose (rest : List Char) :
      occurrences tag ("</td>".toList ++ rest) = occurrences tag rest := by
    cases htag <;> simp [occurrences, List.isPrefixOf]
  rw [cell_append, hopen, occurrences_append htag (bracket_not_mem h), hclose]

theorem occurrences_row (htag : RowTag tag) (m : Metric) (rest : List Char) :
    occurrences tag (row m ++ rest) = occurrences tag rest + 1 := by
  have hcells (rest : List Char) : occurrences tag (cell (escape m.name.toList) ++
      (cell m.kind.name.toList ++ (cell m.value.text.toList ++ rest))) = occurrences tag rest := by
    rw [occurrences_cell htag (markup_escape _), occurrences_cell htag (markup_name _),
      occurrences_cell htag (markup_text _)]
  have hends {raw : List Char}
      (hraw : occurrences tag raw = occurrences tag ("</tr>\n".toList ++ rest)) :
      occurrences tag ("<tr>".toList ++ raw) = occurrences tag rest + 1 := by
    cases htag <;> simp [occurrences, List.isPrefixOf] at hraw ⊢ <;> omega
  rw [row_append]
  exact hends (hcells _)

theorem occurrences_rows (htag : RowTag tag) (ms : List Metric) (rest : List Char) :
    occurrences tag (ms.flatMap row ++ rest) = occurrences tag rest + ms.length := by
  induction ms with
  | nil => rfl
  | cons m ms ih =>
    rw [List.flatMap_cons, List.append_assoc, occurrences_row htag, ih, List.length_cons,
      Nat.add_assoc]

end

/-! ### The page -/

theorem markup_render (ms : List Metric) : markup (render ms).toList =
    markup top ++ ((List.replicate ms.length rowMarkup).flatten ++ markup bottom) := by
  rw [render, String.toList_ofList, List.append_assoc, markup_append, markup_rows]

theorem occurrences_render {tag : List Char} (htag : RowTag tag) (ms : List Metric) :
    occurrences tag (render ms).toList = ms.length + 1 := by
  have hbreak : top = top.dropLast ++ ['\n'] := by cbv
  have htop : occurrences tag top.dropLast = 1 := by cases htag <;> cbv
  have hbottom : occurrences tag bottom = 0 := by cases htag <;> rfl
  rw [render, String.toList_ofList, hbreak, List.append_assoc, List.append_assoc,
    List.singleton_append, occurrences_append_break htag, occurrences_rows htag, htop, hbottom]
  omega

theorem row_congr {m m' : Metric} (h : Row.ofMetric m = Row.ofMetric m') (rest : List Char) :
    row m ++ rest = row m' ++ rest := by
  simp only [Row.ofMetric, Row.mk.injEq] at h
  rw [row_append, row_append, h.1, h.2.1, h.2.2]

theorem rows_congr {ms ms' : List Metric} (h : ms.map Row.ofMetric = ms'.map Row.ofMetric) :
    ms.flatMap row = ms'.flatMap row := by
  induction ms generalizing ms' with
  | nil => rw [List.map_eq_nil_iff.1 h.symm]
  | cons m ms ih =>
    obtain ⟨m', ms', rfl, hm, hms⟩ := List.map_eq_cons_iff.1 h.symm
    rw [List.flatMap_cons, List.flatMap_cons, ih hms.symm, row_congr hm.symm]

theorem render_eq_iff (ms ms' : List Metric) :
    render ms = render ms' ↔ ms.map Row.ofMetric = ms'.map Row.ofMetric := by
  refine ⟨fun h => ?_, fun h => by rw [render, render, rows_congr h]⟩
  have hrows := rows?_render ms
  rw [h, rows?_render] at hrows
  exact (Option.some.inj hrows).symm

/-- The rows of the metrics can be read off the page, whatever the names. There are as many row tags
as metrics, one more for the header, and brackets and quotes are in their places whatever the names.
Pages differ if a name, a kind or the text of a value does. -/
theorem names_forge_no_markup (ms : List Metric) :
    rows? (render ms) = some (ms.map .ofMetric) ∧
    occurrences "<tr>".toList (render ms).toList = ms.length + 1 ∧
    occurrences "</tr>".toList (render ms).toList = ms.length + 1 ∧
    (∀ name : String, markup (escape name.toList) = []) ∧
    markup (render ms).toList =
      markup top ++ ((List.replicate ms.length rowMarkup).flatten ++ markup bottom) ∧
    ∀ ms', render ms = render ms' ↔ ms.map Row.ofMetric = ms'.map Row.ofMetric :=
  ⟨rows?_render ms, occurrences_render .opening ms, occurrences_render .closing ms,
    fun name => markup_escape name.toList, markup_render ms, render_eq_iff ms⟩

end Telemetry.Collector.Page
