import Mathlib.Data.String.Basic
import Telemetry.SortedMap

/-! Inserting into a map: the later value of a name wins, and insertions under different names
commute, whatever list the map is. `Sorted` is the order that `insert` keeps; with it a name is
there once, so looking it up and finding its entry are the same. -/

namespace Telemetry.SortedMap

variable {β γ : Type}

/-- Names ascend, so no name is there twice. -/
def Sorted (m : SortedMap β) : Prop := m.Pairwise fun a b => a.1 < b.1

theorem sorted_nil : Sorted ([] : SortedMap β) := List.Pairwise.nil

theorem mem_insert {m : SortedMap β} {name : String} {v : β} {e : String × β}
    (h : e ∈ m.insert name v) : e = (name, v) ∨ e ∈ m := by
  induction m with
  | nil => simpa [insert] using h
  | cons head rest ih =>
    simp only [insert] at h
    split_ifs at h with hlt heq
    · exact List.mem_cons.1 h
    · rcases List.mem_cons.1 h with rfl | h
      · exact Or.inl rfl
      · exact Or.inr (List.mem_cons_of_mem _ h)
    · rcases List.mem_cons.1 h with rfl | h
      · exact Or.inr List.mem_cons_self
      · exact (ih h).imp_right (List.mem_cons_of_mem _)

theorem sorted_insert {m : SortedMap β} (h : Sorted m) (name : String) (v : β) :
    Sorted (m.insert name v) := by
  induction m with
  | nil => exact List.pairwise_singleton _ _
  | cons head rest ih =>
    obtain ⟨hhead, hrest⟩ := List.pairwise_cons.1 h
    simp only [insert]
    split_ifs with hlt heq
    · refine List.pairwise_cons.2 ⟨fun e he => ?_, h⟩
      rcases List.mem_cons.1 he with rfl | he
      · exact hlt
      · exact hlt.trans (hhead e he)
    · subst heq
      exact List.pairwise_cons.2 ⟨hhead, hrest⟩
    · refine List.pairwise_cons.2 ⟨fun e he => ?_, ih hrest⟩
      rcases mem_insert he with rfl | he
      · exact lt_of_le_of_ne (not_lt.1 hlt) (Ne.symm heq)
      · exact hhead e he

theorem insert_insert (m : SortedMap β) (name : String) (v w : β) :
    (m.insert name w).insert name v = m.insert name v := by
  induction m with
  | nil => simp [insert]
  | cons head rest ih =>
    obtain ⟨n, u⟩ := head
    simp only [insert]
    split_ifs with hlt heq <;> simp [insert, *]

theorem insert_comm (m : SortedMap β) {name other : String} (h : name ≠ other) (v w : β) :
    (m.insert other w).insert name v = (m.insert name v).insert other w := by
  induction m with
  | nil =>
    rcases lt_or_gt_of_ne h with hlt | hgt
    · simp [insert, hlt, hlt.not_gt, h.symm]
    · simp [insert, hgt, hgt.not_gt, h]
  | cons head rest ih =>
    obtain ⟨n, u⟩ := head
    simp only [insert]
    grind [insert]

theorem find?_eq_some_iff {m : SortedMap β} (h : Sorted m) {name : String} {v : β} :
    m.find? name = some v ↔ (name, v) ∈ m := by
  induction m with
  | nil => simp [find?]
  | cons head rest ih =>
    obtain ⟨n, u⟩ := head
    obtain ⟨hhead, hrest⟩ := List.pairwise_cons.1 h
    by_cases hn : name = n
    · subst hn
      have absent : (name, v) ∉ rest := fun hm => lt_irrefl name (hhead _ hm)
      simp [find?, absent, eq_comm]
    · simpa [find?, List.lookup_cons, beq_false_of_ne hn, hn] using ih hrest

theorem find?_eq_none_iff {m : SortedMap β} {name : String} :
    m.find? name = none ↔ ∀ e ∈ m, e.1 ≠ name := by
  rw [find?, List.lookup_eq_none_iff]
  exact forall₂_congr fun e _ => bne_iff_ne.trans ne_comm

theorem filter_eq_of_find? {m : SortedMap β} (h : Sorted m) {name : String} {v : β}
    (hv : m.find? name = some v) : m.filter (·.1 = name) = [(name, v)] := by
  induction m with
  | nil => cases hv
  | cons head rest ih =>
    obtain ⟨n, u⟩ := head
    obtain ⟨hhead, hrest⟩ := List.pairwise_cons.1 h
    by_cases hn : n = name
    · subst hn
      have absent : rest.filter (·.1 = n) = [] :=
        List.filter_eq_nil_iff.2 fun e he => by simpa using (hhead e he).ne'
      obtain rfl : u = v := by simpa [find?] using hv
      rw [List.filter_cons_of_pos (by simp), absent]
    · rw [List.filter_cons_of_neg (by simpa using hn)]
      exact ih hrest (by simpa [find?, List.lookup_cons, beq_false_of_ne (Ne.symm hn)] using hv)

theorem find?_filter_ne (m : SortedMap β) (name key : String) :
    find? (m.filter (·.1 ≠ name)) key = if key = name then none else find? m key := by
  induction m with
  | nil => simp [find?]
  | cons e rest ih =>
    obtain ⟨n, v⟩ := e
    by_cases hn : n = name
    · subst hn
      rw [List.filter_cons_of_neg (by simp), ih]
      split_ifs with hkey
      · rfl
      · simp [find?, List.lookup_cons, beq_false_of_ne hkey]
    · rw [List.filter_cons_of_pos (by simpa using hn)]
      by_cases hkey : key = n
      · subst hkey
        simp [find?, hn]
      · simpa [find?, List.lookup_cons, beq_false_of_ne hkey] using ih

/-- The map with each value changed, which may depend on the name. -/
def mapValues (f : String → β → γ) (m : SortedMap β) : SortedMap γ := m.map fun e => (e.1, f e.1 e.2)

theorem find?_mapValues (f : String → β → γ) (m : SortedMap β) (name : String) :
    (m.mapValues f).find? name = (m.find? name).map (f name) := by
  induction m with
  | nil => rfl
  | cons head rest ih =>
    obtain ⟨n, u⟩ := head
    by_cases hn : name = n
    · subst hn
      simp [mapValues, find?]
    · simpa [mapValues, find?, List.lookup_cons, beq_false_of_ne hn] using ih

theorem insert_mapValues (f : String → β → γ) (m : SortedMap β) (name : String) (v : β) :
    (m.mapValues f).insert name (f name v) = (m.insert name v).mapValues f := by
  induction m with
  | nil => rfl
  | cons head rest ih =>
    obtain ⟨n, u⟩ := head
    simp only [mapValues, List.map_cons, insert] at ih ⊢
    split_ifs <;> simp [ih]

end Telemetry.SortedMap
