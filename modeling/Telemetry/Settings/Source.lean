/-!
Values with where they came from. Merging keeps the higher source and, of equal ones, the later
value, so the order of the layers does not matter as long as their sources differ.
-/

namespace Telemetry

inductive Source
  | builtIn
  | configFile
  | commandLine
  | environment
deriving DecidableEq, Inhabited

namespace Source

def precedence : Source → Nat
  | builtIn => 0
  | configFile => 1
  | commandLine => 2
  | environment => 3

def name : Source → String
  | builtIn => "default"
  | configFile => "config file"
  | commandLine => "command line"
  | environment => "environment"

/-- The name as one word. -/
def tag : Source → String
  | builtIn => "default"
  | configFile => "config_file"
  | commandLine => "command_line"
  | environment => "environment"

end Source

/-- A value, its source and the variable that held it if that was the environment. -/
structure Sourced (α : Type) where
  value : α
  source : Source
  var : Option String
deriving DecidableEq

namespace Sourced

def of (source : Source) (value : α) : Sourced α := ⟨value, source, none⟩

def default (value : α) : Sourced α := of .builtIn value

def ofVariable (name : String) (value : α) : Sourced α := ⟨value, .environment, some name⟩

def map (f : α → β) (s : Sourced α) : Sourced β := ⟨f s.value, s.source, s.var⟩

def merge (s t : Sourced α) : Sourced α :=
  if s.source.precedence ≤ t.source.precedence then t else s

/-- The value of a layer on top, if the layer has one. -/
def layer (s : Sourced α) (value : Option α) (source : Source) : Sourced α :=
  match value with
  | some v => s.merge (of source v)
  | none => s

end Sourced
end Telemetry
