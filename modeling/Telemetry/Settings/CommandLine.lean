import Telemetry.Duration
import Telemetry.Text.Split

/-!
Command lines with short and long flags and no positional arguments. A value may stand in the
argument of its flag or in the next one; in the latter case it is looked at when the next flag
comes or the line ends, so an unknown flag behind it is reported first.
-/

namespace Telemetry.CommandLine

inductive Error
  | displayHelp
  | displayVersion
  | unknownArgument
  /-- A missing value, or one that is none of those possible. -/
  | invalidValue
  /-- A value that is refused for what it says. -/
  | valueValidation
  | argumentConflict
  | tooManyValues
deriving DecidableEq

inductive Arity
  | none
  | one
  /-- At most one; the default stands in for it. -/
  | optional (default : String)

/-- What a flag does to the options `σ` read so far. -/
structure Flag (σ : Type) where
  short : Option Char
  long : String
  arity : Arity
  store : String → σ → Except Error σ

/-- The options so far, the flags that were given, and one that waits for its value: it has none
yet or one from the next argument. -/
structure State (σ : Type) where
  options : σ
  given : List String
  waiting : Option (Flag σ × Option String)

namespace State

/-- Stores a flag with the value it has. -/
def react (s : State σ) (f : Flag σ) (value : Option String) : Except Error (State σ) := do
  let raw ← match f.arity, value with
    | .none, _ => .ok ""
    | .one, some v => .ok v
    | .one, .none => .error .invalidValue
    | .optional _, some v => .ok v
    | .optional default, .none => .ok default
  if f.long ∈ s.given then .error .argumentConflict
  else .ok ⟨← f.store raw s.options, f.long :: s.given, s.waiting⟩

/-- Stores the flag that waits, if there is one. -/
def settle (s : State σ) : Except Error (State σ) :=
  match s.waiting with
  | none => .ok s
  | some (f, value) => react { s with waiting := none } f value

/-- A flag with what stands behind it in its own argument. -/
def meet (s : State σ) (f : Flag σ) (attached : Option String) : Except Error (State σ) := do
  let s ← s.settle
  match f.arity, attached with
  | .none, _ => s.react f none
  | _, some v => s.react f (some v)
  | _, none => .ok { s with waiting := some (f, none) }

def long (flags : List (Flag σ)) (s : State σ) (body : List Char) : Except Error (State σ) :=
  let (name, attached) := match Text.splitOnce? '=' body with
    | some (name, value) => (name, some (String.ofList value))
    | none => (body, none)
  match flags.find? (·.long.toList == name) with
  | none => .error .unknownArgument
  | some f =>
    match f.arity, attached with
    | .none, some _ => .error .tooManyValues
    | _, _ => s.meet f attached

/-- The flags of one argument behind its hyphen, up to one that takes the rest as its value. -/
def shorts (flags : List (Flag σ)) (s : State σ) : List Char → Except Error (State σ)
  | [] => .ok s
  | c :: rest =>
    match flags.find? (·.short == some c) with
    | none => .error .unknownArgument
    | some f =>
      match f.arity, rest with
      | .none, _ => do shorts flags (← s.meet f none) rest
      | _, [] => s.meet f none
      | _, '=' :: value => s.meet f (some (String.ofList value))
      | _, value => s.meet f (some (String.ofList value))

/-- An argument that is no flag: a value if one is due. -/
def plain (s : State σ) (arg : String) : Except Error (State σ) :=
  match s.waiting with
  | some (f, none) => .ok { s with waiting := some (f, some arg) }
  | _ => .error .unknownArgument

def step (flags : List (Flag σ)) (s : State σ) (arg : String) : Except Error (State σ) :=
  match arg.toList with
  | '-' :: '-' :: body => s.long flags body
  | '-' :: c :: rest => s.shorts flags (c :: rest)
  | _ => s.plain arg

end State

/-- The arguments one after the other; behind `--` there may be none. -/
def run (flags : List (Flag σ)) (s : State σ) : List String → Except Error (State σ)
  | [] => s.settle
  | arg :: args =>
    if arg = "--" then if args.isEmpty then s.settle else .error .unknownArgument
    else do run flags (← s.step flags arg) args

/-- Asking for help or for the version stops the reading. -/
def standardFlags (σ : Type) : List (Flag σ) :=
  [⟨some 'h', "help", .none, fun _ _ => .error .displayHelp⟩,
   ⟨some 'V', "version", .none, fun _ _ => .error .displayVersion⟩]

def parse (flags : List (Flag σ)) (start : σ) (args : List String) : Except Error σ := do
  .ok (← run (flags ++ standardFlags σ) ⟨start, [], none⟩ args).options

/-! The kinds of values. -/

def text (set : String → σ → σ) (raw : String) (o : σ) : Except Error σ := .ok (set raw o)

/-- A path is not empty. -/
def path (set : String → σ → σ) (raw : String) (o : σ) : Except Error σ :=
  if raw.isEmpty then .error .invalidValue else .ok (set raw o)

def duration (set : Duration → σ → σ) (raw : String) (o : σ) : Except Error σ :=
  match Duration.parse? raw with
  | some d => .ok (set d o)
  | none => .error .valueValidation

def number (least most : Nat) (set : Nat → σ → σ) (raw : String) (o : σ) : Except Error σ :=
  match Text.word64? raw.toList with
  | some n => if least ≤ n ∧ n ≤ most then .ok (set n o) else .error .valueValidation
  | none => .error .valueValidation

def truth (set : Bool → σ → σ) (raw : String) (o : σ) : Except Error σ :=
  if raw = "true" then .ok (set true o)
  else if raw = "false" then .ok (set false o)
  else .error .invalidValue

end Telemetry.CommandLine
