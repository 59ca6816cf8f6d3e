import Mathlib.Data.String.Basic
import Telemetry.Storage.Directory
import Telemetry.Proofs.Cuts

/-! Paths and the parts they are made of. A path put together from plain parts has those parts
again, so a folder that has been made once is found under the path it was made by, and making it a
second time changes nothing. -/

namespace Telemetry

namespace Path

/-- Names of files and folders, and double dots. -/
structure Plain (p : String) : Prop where
  nonempty : p ≠ ""
  moves : p ≠ "."
  single : '/' ∉ p.toList

theorem mem_parts {path p : String} (h : p ∈ parts path) : Plain p := by
  obtain ⟨cs, hcs, rfl⟩ := List.mem_map.1 h
  obtain ⟨hmem, hkept⟩ := List.mem_filter.1 hcs
  have hsingle := Text.not_mem_of_mem_splitFrom (List.not_mem_nil) hmem
  simp only [ne_eq, decide_eq_true_eq] at hkept
  refine ⟨fun h => hkept.1 ?_, fun h => hkept.2 ?_, by simpa using hsingle⟩
  · simpa using congrArg String.toList h
  · simpa using congrArg String.toList h

theorem toList_ofParts (absolute : Bool) (ps : List String) :
    (ofParts absolute ps).toList =
      (if absolute then ['/'] else []) ++ ['/'].intercalate (ps.map String.toList) := by
  unfold ofParts
  rw [String.toList_append, String.toList_intercalate]
  cases absolute <;> rfl

theorem isAbsolute_ofParts {ps : List String} (h : ∀ p ∈ ps, Plain p) (absolute : Bool) :
    isAbsolute (ofParts absolute ps) = absolute := by
  unfold isAbsolute
  rw [toList_ofParts]
  cases absolute with
  | true => rfl
  | false =>
    cases ps with
    | nil => rfl
    | cons p ps =>
      have hp := h p List.mem_cons_self
      cases hcs : p.toList with
      | nil => exact absurd (String.toList_eq_nil_iff.1 hcs) hp.nonempty
      | cons c cs =>
        have hc : c ≠ '/' := fun e => hp.single (by simp [hcs, e])
        simp [hcs, hc]

theorem parts_ofParts {ps : List String} (h : ∀ p ∈ ps, Plain p) (absolute : Bool) :
    parts (ofParts absolute ps) = ps := by
  -- the slash of an absolute path only adds an empty part
  have lead : parts (ofParts absolute ps) = parts (ofParts false ps) := by
    cases absolute with
    | false => rfl
    | true =>
      unfold parts
      rw [toList_ofParts, toList_ofParts, Text.splitOn_eq, Text.splitOn_eq]
      simp only [if_true, List.singleton_append]
      rw [List.splitOn_cons_eq_if_modifyHead]
      simp
  rw [lead]
  unfold parts
  rw [toList_ofParts, Text.splitOn_eq]
  cases ps with
  | nil => rfl
  | cons p ps =>
    have hsingle : ∀ cs ∈ (p :: ps).map String.toList, '/' ∉ cs := by
      intro cs hcs
      obtain ⟨q, hq, rfl⟩ := List.mem_map.1 hcs
      exact (h q hq).single
    have hkept : ∀ cs ∈ (p :: ps).map String.toList, cs ≠ [] ∧ cs ≠ ['.'] := by
      intro cs hcs
      obtain ⟨q, hq, rfl⟩ := List.mem_map.1 hcs
      refine ⟨fun e => (h q hq).nonempty (String.toList_eq_nil_iff.1 e), fun e => (h q hq).moves ?_⟩
      rw [← String.toList_inj, e]
      rfl
    simp only [Bool.false_eq_true, if_false, List.nil_append]
    rw [List.splitOn_intercalate '/' hsingle (by simp), List.filter_eq_self.2 (by simpa using hkept),
      List.map_map]
    simp [Function.comp_def]

theorem normal_ofParts {ps : List String} (h : ∀ p ∈ ps, Plain p) (absolute : Bool) :
    normal (ofParts absolute ps) = ofParts absolute ps := by
  rw [normal, isAbsolute_ofParts h, parts_ofParts h]

theorem normal_ancestry {path q : String} (h : q ∈ ancestry path) : normal q = q := by
  obtain ⟨i, -, rfl⟩ := List.mem_map.1 h
  exact normal_ofParts (fun p hp => mem_parts (List.mem_of_mem_take hp)) _

end Path

namespace Directory

theorem isFolder_makeFolder {d d' : Directory} {q : String} (hq : Path.normal q = q)
    (h : d.makeFolder? q = some d') : d'.isFolder q = true := by
  unfold makeFolder? at h
  split_ifs at h with hfolder
  · cases h
    exact hfolder
  · cases h
    simp [isFolder, hq]

theorem isFolder_of_makeFolder {d d' : Directory} {q : String} (h : d.makeFolder? q = some d')
    {path : String} (hp : d.isFolder path = true) : d'.isFolder path = true := by
  unfold makeFolder? at h
  split_ifs at h with hfolder
  · cases h
    exact hp
  · cases h
    simp only [isFolder, decide_eq_true_eq] at hp ⊢
    exact List.mem_append_left _ hp

theorem isFolder_foldlM_makeFolder {d d' : Directory} {qs : List String}
    (hq : ∀ q ∈ qs, Path.normal q = q) (h : qs.foldlM makeFolder? d = some d') {path : String}
    (hp : path ∈ qs ∨ d.isFolder path = true) : d'.isFolder path = true := by
  induction qs generalizing d with
  | nil =>
    cases h
    simpa using hp
  | cons q qs ih =>
    rw [List.foldlM_cons] at h
    obtain ⟨d₁, hstep, h⟩ := Option.bind_eq_some_iff.1 h
    refine ih (fun q' hq' => hq q' (List.mem_cons_of_mem _ hq')) h ?_
    rcases hp with hp | hp
    · rcases List.mem_cons.1 hp with rfl | hp
      · exact Or.inr (isFolder_makeFolder (hq _ List.mem_cons_self) hstep)
      · exact Or.inl hp
    · exact Or.inr (isFolder_of_makeFolder hstep hp)

theorem foldlM_makeFolder_eq_self {d : Directory} {qs : List String}
    (h : ∀ q ∈ qs, d.isFolder q = true) : qs.foldlM makeFolder? d = some d := by
  induction qs with
  | nil => rfl
  | cons q qs ih =>
    have hq : d.makeFolder? q = some d := by rw [makeFolder?, if_pos (h q List.mem_cons_self)]
    rw [List.foldlM_cons, hq]
    exact ih fun q' hq' => h q' (List.mem_cons_of_mem _ hq')

theorem makeFolders_again {d d' : Directory} {path : String} (h : d.makeFolders? path = some d') :
    d'.makeFolders? path = some d' :=
  foldlM_makeFolder_eq_self fun _ hq =>
    isFolder_foldlM_makeFolder (fun _ => Path.normal_ancestry) h (Or.inl hq)

end Directory
end Telemetry
