import Mathlib.Data.List.Basic
import Telemetry.Backup.Save
import Telemetry.Proofs.SortedMap

/-! What the steps of a save leave in a directory. Each step that happens says what can be read
afterwards, and leaves all files alone that it does not touch; so a save that succeeds leaves the
lines of all its metrics in its file, whatever was there before. -/

namespace Telemetry

theorem Bytes.ofList_append (as bs : List UInt8) : ofList as ++ ofList bs = ofList (as ++ bs) := by
  apply ByteArray.ext
  simp [ofList]

namespace Directory

open Telemetry.Path (normal)

theorem read?_write (d : Directory) (path : String) (content : ByteArray) :
    (d.write path content).read? path = some content := by
  simp only [write, read?, SortedMap.find?_insert, if_true]

theorem read?_write_of_ne (d : Directory) {path other : String} (h : normal other ≠ normal path)
    (content : ByteArray) : (d.write path content).read? other = d.read? other := by
  simp only [write, read?, SortedMap.find?_insert, if_neg h]

theorem read?_remove (d : Directory) (path other : String) :
    (d.remove path).read? other = if normal other = normal path then none else d.read? other :=
  SortedMap.find?_filter_ne d.files (normal path) (normal other)

theorem read?_makeFolders {d d' : Directory} {path : String} (h : d.makeFolders? path = some d')
    (other : String) : d'.read? other = d.read? other := by
  unfold makeFolders? at h
  generalize Path.ancestry path = qs at h
  induction qs generalizing d with
  | nil =>
    cases h
    rfl
  | cons q qs ih =>
    rw [List.foldlM_cons] at h
    obtain ⟨d₁, hstep, h⟩ := Option.bind_eq_some_iff.1 h
    have same : d₁.read? other = d.read? other := by
      unfold makeFolder? at hstep
      split_ifs at hstep
      · cases hstep
        rfl
      · cases hstep
        rfl
    exact (ih h).trans same

theorem read?_create {d d' : Directory} {path : String} (h : d.create? path = some d') :
    d'.read? path = some ByteArray.empty := by
  unfold create? at h
  split_ifs at h
  obtain rfl := Option.some.inj h
  exact read?_write d path _

theorem read?_append {d d' : Directory} {path : String} {old content : ByteArray}
    (hold : d.read? path = some old) (h : d.append? path content = some d') :
    d'.read? path = some (old ++ content) := by
  rw [append?, hold] at h
  obtain rfl := Option.some.inj h
  exact read?_write d path _

theorem read?_rename {d d' : Directory} {source target : String} {content : ByteArray}
    (hsource : d.read? source = some content) (h : d.rename? source target = some d') :
    d'.read? target = some content := by
  simp only [rename?, hsource] at h
  split_ifs at h
  obtain rfl := Option.some.inj h
  exact read?_write _ target content

theorem namesFolder_of_rename {d d' : Directory} {source target : String}
    (h : d.rename? source target = some d') : Path.namesFolder target = false := by
  unfold rename? at h
  split at h
  · split_ifs at h with hrefused
    simp only [Bool.or_eq_true, not_or, Bool.not_eq_true] at hrefused
    exact hrefused.1.1
  · cases h

end Directory

namespace FileStep

open Telemetry.Path (normal)

/-- The files that a step may change. -/
def touched : FileStep → List String
  | makeFolders _ | sync _ => []
  | create path | append path _ => [normal path]
  | rename source target => [normal source, normal target]

theorem read?_perform {d d' : Directory} {step : FileStep} (h : step.perform? d = some d')
    {other : String} (hother : normal other ∉ step.touched) : d'.read? other = d.read? other := by
  cases step with
  | makeFolders path => exact Directory.read?_makeFolders h other
  | create path =>
    simp only [perform?, Directory.create?] at h
    split_ifs at h
    obtain rfl := Option.some.inj h
    exact d.read?_write_of_ne (fun e => hother (List.mem_singleton.2 e)) _
  | append path content =>
    obtain ⟨old, -, rfl⟩ := Option.map_eq_some_iff.1 h
    exact d.read?_write_of_ne (fun e => hother (List.mem_singleton.2 e)) _
  | sync path =>
    simp only [perform?] at h
    split_ifs at h
    obtain rfl := Option.some.inj h
    rfl
  | rename source target =>
    simp only [touched, List.mem_cons, List.not_mem_nil, or_false, not_or] at hother
    simp only [perform?, Directory.rename?] at h
    split at h
    · split_ifs at h
      obtain rfl := Option.some.inj h
      rw [Directory.read?_write_of_ne _ hother.2, Directory.read?_remove, if_neg hother.1]
    · cases h

end FileStep

namespace Directory

open Telemetry.Path (normal)

theorem run_cons_eq_none_iff {d d' : Directory} {step : FileStep} {steps : List FileStep} :
    d.run (step :: steps) = (d', none) ↔
      ∃ d₁, step.perform? d = some d₁ ∧ d₁.run steps = (d', none) := by
  rw [run]
  cases step.perform? d with
  | none => simp
  | some d₁ => simp

theorem run_append_eq_none_iff {d d' : Directory} {before after : List FileStep} :
    d.run (before ++ after) = (d', none) ↔
      ∃ d₁, d.run before = (d₁, none) ∧ d₁.run after = (d', none) := by
  induction before generalizing d with
  | nil => simp [run]
  | cons step before ih =>
    rw [List.cons_append, run_cons_eq_none_iff]
    simp only [run_cons_eq_none_iff, ih]
    constructor
    · rintro ⟨d₁, hstep, d₂, hbefore, hafter⟩
      exact ⟨d₂, ⟨d₁, hstep, hbefore⟩, hafter⟩
    · rintro ⟨d₂, ⟨d₁, hstep, hbefore⟩, hafter⟩
      exact ⟨d₁, hstep, d₂, hbefore, hafter⟩

theorem read?_run {d d' : Directory} {steps : List FileStep} (h : d.run steps = (d', none))
    {other : String} (hother : ∀ step ∈ steps, normal other ∉ step.touched) :
    d'.read? other = d.read? other := by
  induction steps generalizing d with
  | nil =>
    cases h
    rfl
  | cons step steps ih =>
    obtain ⟨d₁, hstep, h⟩ := run_cons_eq_none_iff.1 h
    exact (ih h fun s hs => hother s (List.mem_cons_of_mem _ hs)).trans
      (step.read?_perform hstep (hother step List.mem_cons_self))

theorem exists_of_run_eq_some {d d' : Directory} {steps : List FileStep} {step : FileStep}
    (h : d.run steps = (d', some step)) :
    ∃ before after, steps = before ++ step :: after ∧ d.run before = (d', none) := by
  induction steps generalizing d with
  | nil => cases h
  | cons first steps ih =>
    rw [run] at h
    cases hfirst : first.perform? d with
    | none =>
      rw [hfirst] at h
      obtain ⟨rfl, hstep⟩ := Prod.mk.inj h
      exact ⟨[], steps, by rw [Option.some.inj hstep]; rfl, rfl⟩
    | some d₁ =>
      rw [hfirst] at h
      obtain ⟨before, after, rfl, hrun⟩ := ih h
      exact ⟨first :: before, after, rfl, run_cons_eq_none_iff.2 ⟨d₁, hfirst, hrun⟩⟩

/-- Chunks that are appended stand one after the other behind what was there. -/
theorem read?_run_append {d d' : Directory} {path : String} {old : List UInt8}
    {chunks : List (List UInt8)} (hold : d.read? path = some (Bytes.ofList old))
    (h : d.run ((chunks.map Bytes.ofList).map (.append path)) = (d', none)) :
    d'.read? path = some (Bytes.ofList (old ++ chunks.flatten)) := by
  induction chunks generalizing d old with
  | nil =>
    cases h
    simpa using hold
  | cons chunk chunks ih =>
    obtain ⟨d₁, hstep, h⟩ := run_cons_eq_none_iff.1 h
    have appended := read?_append hold hstep
    rw [Bytes.ofList_append] at appended
    simpa using ih appended h

end Directory

namespace Backup

theorem read?_run_steps {d d' : Directory} {path : String} {chunks : List (List UInt8)}
    (h : d.run (steps path (chunks.map Bytes.ofList)) = (d', none)) :
    d'.read? path = some (Bytes.ofList chunks.flatten) ∧ Path.namesFolder path = false := by
  simp only [steps, List.append_assoc, List.cons_append] at h
  obtain ⟨d₁, -, h⟩ := Directory.run_append_eq_none_iff.1 h
  obtain ⟨d₂, hcreate, h⟩ := Directory.run_cons_eq_none_iff.1 h
  obtain ⟨d₃, happend, h⟩ := Directory.run_append_eq_none_iff.1 h
  obtain ⟨d₄, hsync, h⟩ := Directory.run_cons_eq_none_iff.1 h
  obtain ⟨d₅, hrename, h⟩ := Directory.run_cons_eq_none_iff.1 h
  obtain rfl := (Prod.mk.inj h).1
  have written : d₃.read? (temporaryPath path) = some (Bytes.ofList chunks.flatten) := by
    simpa using Directory.read?_run_append (Directory.read?_create hcreate) happend
  simp only [FileStep.perform?] at hsync
  split_ifs at hsync
  obtain rfl := Option.some.inj hsync
  exact ⟨Directory.read?_rename written hrename, Directory.namesFolder_of_rename hrename⟩

theorem save_eq_ok {metrics : List Metric} {path : String} {d d' : Directory} {n : ℕ}
    (h : save metrics path d = (d', .ok n)) :
    n = metrics.length ∧ d'.read? path = some (Bytes.ofList (write metrics)) ∧
      Path.namesFolder path = false := by
  unfold save at h
  split at h
  · next d₁ hrun =>
    obtain ⟨rfl, hn⟩ := Prod.mk.inj h
    refine ⟨(Except.ok.inj hn).symm, ?_⟩
    rw [← Function.comp_def Bytes.ofList line, ← List.map_map] at hrun
    rw [write, List.flatMap_def]
    exact read?_run_steps hrun
  · cases (Prod.mk.inj h).2

end Backup
end Telemetry
