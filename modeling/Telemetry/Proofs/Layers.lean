import Mathlib.Data.List.Basic
import Telemetry.Settings.File

/-! One setting and its layers. `Layers.highest` is the value of the highest layer that has one;
merging layer over layer and then reading the variable comes to it, and a variable that is set to
something invalid counts as a layer without a value and is a problem. A variable whose bytes are no
text counts as not set. -/

namespace Telemetry

/-- What the layers say about a setting. The variable comes with its name. -/
structure Layers (α : Type) where
  standard : α
  file : Option α
  flag : Option α
  held : Option (String × α)

/-- The value of the highest layer that has one. -/
def Layers.highest {α : Type} (l : Layers α) : Sourced α :=
  match l.held, l.flag, l.file with
  | some (name, v), _, _ => .ofVariable name v
  | none, some v, _ => .of .commandLine v
  | none, none, some v => .of .configFile v
  | none, none, none => .default l.standard

namespace Environment

/-- What the text of a variable has to be. -/
inductive Form
  | text
  | duration
  | truth
  | count (least most : ℕ)

def truth? (raw : String) : Option Bool :=
  let word := String.ofList (Text.fold raw.toList)
  if word ∈ truthWords then some true else if word ∈ falsehoodWords then some false else none

/-- A number within bounds, with white space around it. -/
def count? (least most : ℕ) (raw : String) : Option ℕ :=
  (Text.word64? (Text.trim raw.toList)).filter fun n => least ≤ n ∧ n ≤ most

def clearing (raw : String) : Option (Option String) := some (if raw = "" then none else some raw)

/-- What is wrong with the text of a variable, if anything is. -/
def Form.problem? (var raw : String) : Form → Option Problem
  | text => none
  | duration => if Duration.parse? raw = none then some (.invalidDuration var raw) else none
  | truth =>
    if truth? raw = none then some (.invalidValue var "boolean (true/false/1/0/yes/no)" raw)
    else none
  | count least most =>
    match Text.word64? (Text.trim raw.toList) with
    | none => some (.invalidValue var "unsigned 64-bit integer" raw)
    | some n => if least ≤ n ∧ n ≤ most then none else some (.outOfRange var n least most)

variable {α : Type} (env : Environment) (name : String)

/-- What is wrong with a variable that is set. -/
def problem? (f : Form) : Option Problem :=
  (env.lookup? name).bind fun raw => f.problem? (env.fullName name) raw

def problems (forms : List (String × Form)) : List Problem :=
  forms.filterMap fun (name, form) => env.problem? name form

/-- The layer of a variable: its text as a value, if it is set and its text is one. -/
def held (value? : String → Option α) : Option (String × α) :=
  (env.lookup? name).bind fun raw => (value? raw).map (env.fullName name, ·)

/-- A reading comes to the highest layer, and to the problem of the variable. -/
structure Reading.Comes (r : Reading α) (l : Layers α) (problem : Option Problem) : Prop where
  value : r.value = l.highest
  problem : r.problem = problem

section

variable {name} {parse : String → String → Except Problem α} {value? : String → Option α} {f : Form}

theorem comes_read (hvalue : ∀ raw v, parse (env.fullName name) raw = .ok v ↔ value? raw = some v)
    (hproblem : ∀ raw p, parse (env.fullName name) raw = .error p ↔
      f.problem? (env.fullName name) raw = some p) (standard : α) (file flag : Option α) :
    (env.read name (Settings.layered standard file flag) parse).Comes
      ⟨standard, file, flag, env.held name value?⟩ (env.problem? name f) := by
  have below : Settings.layered standard file flag = Layers.highest ⟨standard, file, flag, none⟩ := by
    cases file <;> cases flag <;> rfl
  rw [below]
  unfold read held problem?
  cases env.lookup? name with
  | none => exact ⟨rfl, rfl⟩
  | some raw =>
    cases h : parse (env.fullName name) raw with
    | ok v =>
      have noProblem : f.problem? (env.fullName name) raw = none := by
        refine Option.eq_none_iff_forall_ne_some.2 fun p hp => ?_
        rw [(hproblem raw p).2 hp] at h
        cases h
      simp only [Option.bind_some, (hvalue raw v).1 h, noProblem, h]
      exact ⟨rfl, rfl⟩
    | error p =>
      have noValue : value? raw = none := by
        refine Option.eq_none_iff_forall_ne_some.2 fun v hv => ?_
        rw [(hvalue raw v).2 hv] at h
        cases h
      simp only [Option.bind_some, (hproblem raw p).1 h, noValue, h]
      exact ⟨rfl, rfl⟩

end

theorem comes_string (standard : String) (file flag : Option String) :
    (env.string name (Settings.layered standard file flag)).Comes
      ⟨standard, file, flag, env.held name some⟩ (env.problem? name .text) :=
  env.comes_read (by simp) (by simp [Form.problem?]) standard file flag

theorem comes_optionalString (standard : Option String) (file flag : Option (Option String)) :
    (env.optionalString name (Settings.layered standard file flag)).Comes
      ⟨standard, file, flag, env.held name clearing⟩ (env.problem? name .text) :=
  env.comes_read (by simp [clearing]) (by simp [Form.problem?]) standard file flag

theorem comes_duration (standard : Duration) (file flag : Option Duration) :
    (env.duration name (Settings.layered standard file flag)).Comes
      ⟨standard, file, flag, env.held name Duration.parse?⟩ (env.problem? name .duration) := by
  refine env.comes_read (fun raw v => ?_) (fun raw p => ?_) standard file flag
  · cases Duration.parse? raw <;> simp
  · cases h : Duration.parse? raw <;> simp [Form.problem?, h]

theorem comes_bool (standard : Bool) (file flag : Option Bool) :
    (env.bool name (Settings.layered standard file flag)).Comes
      ⟨standard, file, flag, env.held name truth?⟩ (env.problem? name .truth) := by
  refine env.comes_read (fun raw v => ?_) (fun raw p => ?_) standard file flag
  · by_cases htrue : String.ofList (Text.fold raw.toList) ∈ truthWords
    · simp [truth?, htrue]
    · by_cases hfalse : String.ofList (Text.fold raw.toList) ∈ falsehoodWords <;>
        simp [truth?, htrue, hfalse]
  · by_cases htrue : String.ofList (Text.fold raw.toList) ∈ truthWords
    · simp [Form.problem?, truth?, htrue]
    · by_cases hfalse : String.ofList (Text.fold raw.toList) ∈ falsehoodWords <;>
        simp [Form.problem?, truth?, htrue, hfalse]

theorem comes_word64 (least most standard : ℕ) (file flag : Option ℕ) :
    (env.word64 name (Settings.layered standard file flag) least most).Comes
      ⟨standard, file, flag, env.held name (count? least most)⟩
      (env.problem? name (.count least most)) := by
  refine env.comes_read (fun raw v => ?_) (fun raw p => ?_) standard file flag
  · simp only [count?]
    cases Text.word64? (Text.trim raw.toList) with
    | none => simp
    | some n => by_cases h : least ≤ n ∧ n ≤ most <;> simp [Option.filter_some, h]
  · simp only [Form.problem?]
    cases Text.word64? (Text.trim raw.toList) with
    | none => simp
    | some n => by_cases h : least ≤ n ∧ n ≤ most <;> simp [h]

end Environment
end Telemetry
