import Telemetry.Settings.Source
import Telemetry.Duration
import Telemetry.Text.Split

/-!
Typed values from environment variables. A variable that is not set, or set to something that is no
text, leaves the value as it was; so does one that is invalid, and it is a problem as well.
-/

namespace Telemetry

/-- The variables, each with its text or with none if its bytes are no text, and what the names
asked for begin with. -/
structure Environment where
  bindings : List (String × Option String)
  scope : String

namespace Environment

inductive Problem
  | invalidValue (var expected value : String)
  | invalidDuration (var value : String)
  | outOfRange (var : String) (value least most : Nat)
  | invalidLevel (var value : String)
deriving DecidableEq

def Problem.message : Problem → String
  | invalidValue var expected value =>
    "Invalid value for " ++ var ++ ": expected " ++ expected ++ ", got '" ++ value ++ "'"
  | invalidDuration var value =>
    "Invalid duration for " ++ var ++ ": " ++ value ++
      " (use 300ms, 10s, 5m, 1h or seconds)"
  | outOfRange var value least most =>
    "Value out of range for " ++ var ++ ": " ++ toString value ++ " (valid: " ++
      toString least ++ "..=" ++ toString most ++ ")"
  | invalidLevel var value => "Invalid log level for " ++ var ++ ": " ++ value

/-- A value and what was wrong with the variable for it. -/
structure Reading (α : Type) where
  value : Sourced α
  problem : Option Problem

def fullName (env : Environment) (name : String) : String := env.scope ++ name

/-- Whether the variable is set to anything at all. -/
def isSet (env : Environment) (name : String) : Bool :=
  (env.bindings.lookup (env.fullName name)).isSome

/-- The text of a variable. -/
def lookup? (env : Environment) (name : String) : Option String :=
  (env.bindings.lookup (env.fullName name)).join

/-- Reads a variable: its text becomes a value or a problem. -/
def read (env : Environment) (name : String) (fallback : Sourced α)
    (parse : String → String → Except Problem α) : Reading α :=
  match env.lookup? name with
  | none => ⟨fallback, none⟩
  | some raw =>
    match parse (env.fullName name) raw with
    | .ok v => ⟨.ofVariable (env.fullName name) v, none⟩
    | .error p => ⟨fallback, some p⟩

def string (env : Environment) (name : String) (fallback : Sourced String) : Reading String :=
  env.read name fallback fun _ raw => .ok raw

/-- An empty variable clears the value. -/
def optionalString (env : Environment) (name : String) (fallback : Sourced (Option String)) :
    Reading (Option String) :=
  env.read name fallback fun _ raw => .ok (if raw.isEmpty then none else some raw)

def truthWords : List String := ["1", "true", "yes", "on"]

def falsehoodWords : List String := ["0", "false", "no", "off", ""]

def bool (env : Environment) (name : String) (fallback : Sourced Bool) : Reading Bool :=
  env.read name fallback fun var raw =>
    let word := String.ofList (Text.fold raw.toList)
    if word ∈ truthWords then .ok true
    else if word ∈ falsehoodWords then .ok false
    else .error (.invalidValue var "boolean (true/false/1/0/yes/no)" raw)

def word64 (env : Environment) (name : String) (fallback : Sourced Nat) (least most : Nat) :
    Reading Nat :=
  env.read name fallback fun var raw =>
    match Text.word64? (Text.trim raw.toList) with
    | none => .error (.invalidValue var "unsigned 64-bit integer" raw)
    | some n =>
      if least ≤ n ∧ n ≤ most then .ok n else .error (.outOfRange var n least most)

def duration (env : Environment) (name : String) (fallback : Sourced Duration) :
    Reading Duration :=
  env.read name fallback fun var raw =>
    match Duration.parse? raw with
    | some d => .ok d
    | none => .error (.invalidDuration var raw)

def levels : List String := ["trace", "debug", "info", "warn", "error", "off"]

def level (env : Environment) (name : String) (default : String) : Reading String :=
  env.read name (.default default) fun var raw =>
    let word := String.ofList (Text.fold raw.toList)
    if word ∈ levels then .ok word else .error (.invalidLevel var raw)

/-- The parts between commas without the white space around them; empty ones are left out. -/
def list (env : Environment) (name : String) (default : List String) : Reading (List String) :=
  env.read name (.default default) fun _ raw =>
    .ok (((Text.splitOn ',' raw.toList).map Text.trim).filter (· ≠ []) |>.map String.ofList)

end Environment
end Telemetry
