import Telemetry.Settings.Environment
import Telemetry.SortedMap

/-!
What is logged, where and how, as the variables of the logging scope say it. Nothing here is a
reason not to start: what cannot be used is left out.
-/

namespace Telemetry.Log

inductive Format
  | pretty
  | json
  | compact
deriving DecidableEq

def Format.name : Format → String
  | pretty => "pretty"
  | json => "json"
  | compact => "compact"

def Format.parse? (raw : String) : Option Format :=
  let word := Text.fold (Text.trim raw.toList)
  [Format.pretty, .json, .compact].find? fun f => f.name.toList == word

structure Config where
  level : String
  format : Format
  file : Option String
  /-- Levels of single targets. -/
  targets : SortedMap String
  withTarget : Bool
  withThreadIds : Bool
  withFileLine : Bool
  toStderr : Bool

/-- A target and a level with an equals sign between them. -/
def parseTarget? (entry : String) : Option (String × String) := do
  let (target, level) ← Text.splitOnce? '=' entry.toList
  let target := Text.trim target
  let level := String.ofList (Text.fold (Text.trim level))
  if target ≠ [] ∧ level ∈ Environment.levels then some (String.ofList target, level) else none

def variableScope : String := "METRIQ_"

/-- The variables are looked up with their full names, whatever scope `env` has. -/
def Config.ofEnvironment (env : Environment) (defaultLevel : String) : Config :=
  let env := { env with scope := variableScope }
  { level := (env.level "LOG_LEVEL" defaultLevel).value.value
    format := (Format.parse? (env.string "LOG_FORMAT" (.default "")).value.value).getD .compact
    file := (env.optionalString "LOG_FILE" (.default none)).value.value
    targets := SortedMap.ofList ((env.list "LOG_TARGETS" []).value.value.filterMap parseTarget?)
    withTarget := true
    withThreadIds := false
    withFileLine := false
    toStderr := false }

/-- One entry of a filter: the least level that is logged, for one target or for all. -/
structure Directive where
  target : Option String
  level : String
deriving DecidableEq

def Directive.text (d : Directive) : String :=
  match d.target with
  | some t => t ++ "=" ++ d.level
  | none => d.level

/-- The levels by number. -/
def numberedLevels : List String := ["off", "error", "warn", "info", "debug", "trace"]

def level? (raw : List Char) : Option String :=
  let word := String.ofList (Text.fold raw)
  if word ∈ numberedLevels then some word
  else match raw with
    | [c] => (Text.digit? c).bind fun n => numberedLevels[n]?
    | _ => none

def isTargetChar (c : Char) : Bool :=
  c.isAlphanum || c == '_' || c == ':' || c == '-' || (0x80 ≤ c.val && !Text.isBlank c)

/-- A level, a target, which is then logged at every level, or both with an equals sign. -/
def Directive.parse? (raw : List Char) : Option Directive :=
  match level? raw with
  | some l => some ⟨none, l⟩
  | none =>
    let (target, level?) : List Char × Option String := match Text.splitOnce? '=' raw with
      | none => (raw, some "trace")
      | some (target, []) => (target, some "trace")
      | some (target, level) => (target, level? level)
    if target ≠ [] ∧ target.all isTargetChar then
      level?.map fun l => ⟨some (String.ofList target), l⟩
    else none

/-- A directive replaces an earlier one for the same target. -/
def addDirective (filter : List Directive) (d : Directive) : List Directive :=
  filter.filter (·.target != d.target) ++ [d]

/-- Without any directive errors are logged. -/
def filterOf (directives : List Directive) : List Directive :=
  match directives.foldl addDirective [] with
  | [] => [⟨none, "error"⟩]
  | filter => filter

def entries (raw : String) : List (List Char) :=
  (Text.splitOn ',' raw.toList).filter (· ≠ [])

/-- The filter of a text whose entries all have to be valid. -/
def parseFilter? (raw : String) : Option (List Directive) :=
  ((entries raw).mapM Directive.parse?).map filterOf

/-- The variable that holds a whole filter. -/
def filterVariable : String := "RUST_LOG"

/-- The filter of the configuration, unless the variable for it holds a valid one. -/
def Config.filter (c : Config) (env : Environment) : List Directive :=
  match ({ env with scope := "" }.lookup? filterVariable).bind parseFilter? with
  | some filter => filter
  | none =>
    filterOf (((entries c.level).filterMap Directive.parse?) ++
      c.targets.filterMap fun (target, level) =>
        Directive.parse? (target.toList ++ '=' :: level.toList))

end Telemetry.Log
