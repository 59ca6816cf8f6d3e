import Mathlib.Data.List.Basic
import Mathlib.Data.List.Induction
import Mathlib.Data.List.Perm.Basic
import Mathlib.Order.Nat
import Telemetry.Settings.Environment

/-! Values laid over one another, step by step. Whatever the steps are, the value that is left is
the latest of those with the highest source, as it was offered, so the order of steps with different
sources does not matter. -/

namespace Telemetry

theorem Source.precedence_injective : Function.Injective Source.precedence := by
  intro r s h
  cases r <;> cases s <;> first | rfl | cases h

namespace Sourced

variable {α β : Type}

/-- A step that may change a value with a source. A layer may have nothing to say. -/
inductive Step (α : Type)
  | merge (s : Sourced α)
  | layer (value : Option α) (source : Source)
  | environment (name : String) (value : α)

namespace Step

def apply (s : Sourced α) : Step α → Sourced α
  | merge t => s.merge t
  | layer value source => s.layer value source
  | environment name value => s.merge (ofVariable name value)

def offer? : Step α → Option (Sourced α)
  | merge s => some s
  | layer value source => value.map (of source)
  | environment name value => some (ofVariable name value)

def map (f : α → β) : Step α → Step β
  | merge s => merge (s.map f)
  | layer value source => layer (value.map f) source
  | environment name value => environment name (f value)

end Step

def run (start : Sourced α) (steps : List (Step α)) : Sourced α := steps.foldl Step.apply start

/-- The values that come up in a run, in their order. -/
def candidates (start : Sourced α) (steps : List (Step α)) : List (Sourced α) :=
  start :: steps.filterMap Step.offer?

/-- No value has a higher source than `w`, and no later one has the same. -/
def Prevails (w : Sourced α) (values : List (Sourced α)) : Prop :=
  ∃ before after, values = before ++ w :: after ∧
    (∀ s ∈ before, s.source.precedence ≤ w.source.precedence) ∧
    ∀ s ∈ after, s.source.precedence < w.source.precedence

theorem merge_of_le {s t : Sourced α} (h : s.source.precedence ≤ t.source.precedence) :
    s.merge t = t :=
  if_pos h

theorem merge_of_lt {s t : Sourced α} (h : t.source.precedence < s.source.precedence) :
    s.merge t = s :=
  if_neg (Nat.not_le.2 h)

namespace Prevails

variable {w w' : Sourced α} {values values' : List (Sourced α)}

theorem mem (h : Prevails w values) : w ∈ values := by
  obtain ⟨before, after, rfl, -, -⟩ := h
  simp

theorem le (h : Prevails w values) {s : Sourced α} (hs : s ∈ values) :
    s.source.precedence ≤ w.source.precedence := by
  obtain ⟨before, after, rfl, hbefore, hafter⟩ := h
  rcases List.mem_append.1 hs with hs | hs
  · exact hbefore s hs
  · rcases List.mem_cons.1 hs with rfl | hs
    · exact le_rfl
    · exact (hafter s hs).le

theorem concat (h : Prevails w values) (s : Sourced α) : Prevails (w.merge s) (values ++ [s]) := by
  rcases le_or_gt w.source.precedence s.source.precedence with hle | hlt
  · rw [merge_of_le hle]
    exact ⟨values, [], rfl, fun t ht => (h.le ht).trans hle, nofun⟩
  · rw [merge_of_lt hlt]
    obtain ⟨before, after, rfl, hbefore, hafter⟩ := h
    refine ⟨before, after ++ [s], by simp, hbefore, fun t ht => ?_⟩
    rcases List.mem_append.1 ht with ht | ht
    · exact hafter t ht
    · rwa [List.mem_singleton.1 ht]

/-- Of two places where the list may be cut, the first has the second behind it. -/
theorem unique (h : Prevails w values) (h' : Prevails w' values) : w = w' := by
  obtain ⟨before, after, rfl, hbefore, hafter⟩ := h
  obtain ⟨before', after', heq, hbefore', hafter'⟩ := h'
  rcases List.append_eq_append_iff.1 heq with ⟨between, rfl, hrest⟩ | ⟨between, rfl, hrest⟩
  · rcases between with _ | ⟨s, between⟩
    · exact (List.cons.inj hrest).1
    · obtain ⟨rfl, rfl⟩ := List.cons.inj hrest
      have hle := hbefore' w (by simp)
      have hlt := hafter w' (by simp)
      exact absurd hle (Nat.not_le.2 hlt)
  · rcases between with _ | ⟨s, between⟩
    · exact (List.cons.inj hrest).1.symm
    · obtain ⟨rfl, rfl⟩ := List.cons.inj hrest
      have hle := hbefore w' (by simp)
      have hlt := hafter' w (by simp)
      exact absurd hle (Nat.not_le.2 hlt)

/-- Where no source comes twice, it is not the order that tells which value prevails. -/
theorem iff_of_nodup (hsources : (values.map source).Nodup) :
    Prevails w values ↔
      w ∈ values ∧ ∀ s ∈ values, s.source.precedence ≤ w.source.precedence := by
  refine ⟨fun h => ⟨h.mem, fun s => h.le⟩, fun ⟨hw, hle⟩ => ?_⟩
  obtain ⟨before, after, rfl⟩ := List.append_of_mem hw
  refine ⟨before, after, rfl, fun s hs => hle s (by simp [hs]), fun s hs => ?_⟩
  have hother : s.source ≠ w.source := by
    rw [List.map_append, List.map_cons] at hsources
    have hnot := (List.nodup_cons.1 (List.nodup_append.1 hsources).2.1).1
    exact fun h => hnot (h ▸ List.mem_map_of_mem hs)
  exact (hle s (by simp [hs])).lt_of_ne fun h => hother (Source.precedence_injective h)

theorem perm (hperm : values.Perm values') (hsources : (values.map source).Nodup) :
    Prevails w values ↔ Prevails w values' := by
  rw [iff_of_nodup hsources, iff_of_nodup ((hperm.map source).nodup_iff.1 hsources)]
  simp only [hperm.mem_iff]

end Prevails

theorem apply_eq_offer (s : Sourced α) (step : Step α) :
    step.apply s = step.offer?.elim s s.merge := by
  rcases step with t | ⟨_ | v, source⟩ | ⟨name, v⟩ <;> rfl

theorem candidates_concat (start : Sourced α) (steps : List (Step α)) (step : Step α) :
    candidates start (steps ++ [step]) = candidates start steps ++ step.offer?.toList := by
  cases h : step.offer? <;> simp [candidates, List.filterMap_append, h]

theorem prevails_run (start : Sourced α) (steps : List (Step α)) :
    Prevails (start.run steps) (candidates start steps) := by
  induction steps using List.reverseRecOn with
  | nil => exact ⟨[], [], rfl, nofun, nofun⟩
  | append_singleton steps step ih =>
    have hrun : start.run (steps ++ [step]) = step.apply (start.run steps) := by
      rw [run, List.foldl_append]
      rfl
    rw [hrun, apply_eq_offer, candidates_concat]
    cases step.offer? with
    | none => simpa using ih
    | some s => exact ih.concat s

theorem run_eq_iff {start w : Sourced α} {steps : List (Step α)} :
    start.run steps = w ↔ Prevails w (candidates start steps) := by
  refine ⟨fun h => h ▸ prevails_run start steps, fun h => (prevails_run start steps).unique h⟩

theorem merge_assoc (r s t : Sourced α) : (r.merge s).merge t = r.merge (s.merge t) := by
  rcases le_or_gt s.source.precedence t.source.precedence with hst | hst
  · rw [merge_of_le hst]
    rcases le_or_gt r.source.precedence s.source.precedence with hrs | hrs
    · rw [merge_of_le hrs, merge_of_le hst, merge_of_le (hrs.trans hst)]
    · rw [merge_of_lt hrs]
  · rw [merge_of_lt hst]
    rcases le_or_gt r.source.precedence s.source.precedence with hrs | hrs
    · rw [merge_of_le hrs, merge_of_lt hst]
    · rw [merge_of_lt hrs, merge_of_lt (hst.trans hrs)]

theorem map_merge (f : α → β) (s t : Sourced α) :
    (s.merge t).map f = (s.map f).merge (t.map f) := by
  rcases le_or_gt s.source.precedence t.source.precedence with h | h
  · rw [merge_of_le h]
    exact (merge_of_le (s := s.map f) (t := t.map f) h).symm
  · rw [merge_of_lt h]
    exact (merge_of_lt (s := s.map f) (t := t.map f) h).symm

theorem map_apply (f : α → β) (s : Sourced α) (step : Step α) :
    (step.apply s).map f = (step.map f).apply (s.map f) := by
  rcases step with t | ⟨_ | v, source⟩ | ⟨name, v⟩
  · exact map_merge f s t
  · rfl
  · exact map_merge f s (of source v)
  · exact map_merge f s (ofVariable name v)

theorem map_run (f : α → β) (start : Sourced α) (steps : List (Step α)) :
    (start.run steps).map f = (start.map f).run (steps.map (Step.map f)) := by
  induction steps generalizing start with
  | nil => rfl
  | cons step steps ih =>
    have hrun : start.run (step :: steps) = (step.apply start).run steps := rfl
    rw [hrun, ih, map_apply]
    rfl

/-- Reading a variable is a step from the environment, if its text is a value, or else none. -/
theorem value_read (env : Environment) (name : String) (fallback : Sourced α)
    (parse : String → String → Except Environment.Problem α) :
    (env.read name fallback parse).value = fallback.run
      (((env.lookup? name).bind fun raw => (parse (env.fullName name) raw).toOption).toList.map
        (.environment (env.fullName name))) := by
  unfold Environment.read
  cases env.lookup? name with
  | none => rfl
  | some raw =>
    cases h : parse (env.fullName name) raw with
    | error p => simp [h, Except.toOption, run]
    | ok v =>
      have htop : fallback.source.precedence ≤ Source.environment.precedence := by
        cases fallback.source <;> decide
      have hmerge : fallback.merge (ofVariable (env.fullName name) v) =
          ofVariable (env.fullName name) v := merge_of_le htop
      simp [h, Except.toOption, run, Step.apply, hmerge]

/-- What is left of a value and of all that is laid over it is the latest of those with the highest
source, with this source and its variable; reading a variable is such a step too. So merging is
associative, steps from different sources that the value is not from itself may come in any order,
and a function may be applied to the values before or behind. -/
theorem layering_follows_precedence :
    (∀ (start w : Sourced α) (steps : List (Step α)),
      start.run steps = w ↔ Prevails w (candidates start steps)) ∧
    (∀ r s t : Sourced α, (r.merge s).merge t = r.merge (s.merge t)) ∧
    (∀ (start : Sourced α) (steps steps' : List (Step α)), steps.Perm steps' →
      ((candidates start steps).map source).Nodup → start.run steps = start.run steps') ∧
    (∀ (f : α → β) (start : Sourced α) (steps : List (Step α)),
      (start.run steps).map f = (start.map f).run (steps.map (Step.map f))) ∧
    ∀ (env : Environment) (name : String) (fallback : Sourced α)
      (parse : String → String → Except Environment.Problem α),
      (env.read name fallback parse).value = fallback.run
        (((env.lookup? name).bind fun raw => (parse (env.fullName name) raw).toOption).toList.map
          (.environment (env.fullName name))) := by
  refine ⟨fun start w steps => run_eq_iff, merge_assoc,
    fun start steps steps' hsteps hsources => ?_, map_run, value_read⟩
  have hperm : (candidates start steps).Perm (candidates start steps') :=
    (hsteps.filterMap _).cons start
  exact run_eq_iff.2 ((Prevails.perm hperm hsources).2 (prevails_run start steps'))

/-- A flag before the file, with a variable that is not set between them. -/
theorem flag_and_file_are_laid_in_any_order :
    let start : Sourced ℕ := default 10
    let flag : Step ℕ := .layer (some 3) .commandLine
    let absent : Step ℕ := .layer none .environment
    let file : Step ℕ := .layer (some 2) .configFile
    [flag, absent, file].Perm [file, absent, flag] ∧
      ((candidates start [flag, absent, file]).map source).Nodup ∧
      start.run [flag, absent, file] = of .commandLine 3 ∧
      start.run [file, absent, flag] = of .commandLine 3 := by
  intro start flag absent file
  have hperm : [flag, absent, file].Perm [file, absent, flag] :=
    (List.reverse_perm [flag, absent, file]).symm
  have hsources : ((candidates start [flag, absent, file]).map source).Nodup := by decide
  have hrun : start.run [flag, absent, file] = of .commandLine 3 := rfl
  have hsame := (layering_follows_precedence (β := ℕ)).2.2.1 start _ _ hperm hsources
  exact ⟨hperm, hsources, hrun, hsame ▸ hrun⟩

end Sourced
end Telemetry
