import Telemetry.Host.Keyed

/-!
How busy each core was between two looks at its counters. The counters of a core are compared with
those that stood in the same place the last time; a core without any is compared with zero.
-/

namespace Telemetry.Host

/-- What a core has counted since the host started. -/
structure CoreTimes where
  idle : Nat
  total : Nat
deriving DecidableEq

namespace CoreTimes

def zero : CoreTimes := ⟨0, 0⟩

/-- Counters stay where 64 bits end. -/
def clamp (n : Nat) : Nat := min n (2 ^ 64 - 1)

/-- Whether a label is that of a single core. -/
def isLabel (label : List Char) : Bool :=
  match label with
  | 'c' :: 'p' :: 'u' :: d :: ds => (d :: ds).all fun c => (Text.digit? c).isSome
  | _ => false

/-- Counters after the first eight are part of others. -/
def ofFields (label : List Char) (fields : List (List Char)) : Except Error CoreTimes :=
  match (fields.take 8).mapM Text.word64? with
  | none => .error (.badCounters (String.ofList label))
  | some values =>
    match values with
    | _ :: _ :: _ :: idle :: rest =>
      .ok ⟨clamp (idle + rest.headD 0), clamp (values.foldl (· + ·) 0)⟩
    | _ => .error (.tooFewCounters (String.ofList label))

/-- The counters on a line, if it is that of a core. -/
def ofLine (line : List Char) : Except Error (Option CoreTimes) :=
  match Text.words line with
  | [] => .ok none
  | label :: fields => if isLabel label then (ofFields label fields).map some else .ok none

def parse (content : String) : Except Error (List CoreTimes) := do
  let found ← (Text.lines content.toList).mapM ofLine
  match found.filterMap id with
  | [] => .error .noCores
  | cores => .ok cores

/-- The busy share since an earlier look, in percent. Counters that went back count as still. -/
def utilization (now earlier : CoreTimes) : Real64 :=
  let total := now.total - earlier.total
  let idle := min (now.idle - earlier.idle) total
  if total = 0 then .zero
  else ((Real64.ofNat 100).mul (.ofNat (total - idle))).div (.ofNat total)

end CoreTimes

/-- The counters at the last look. -/
structure Sampler where
  earlier : List CoreTimes

namespace Sampler

def start : Sampler := ⟨[]⟩

def gauge (earlier : List CoreTimes) (now : CoreTimes) (i : Nat) : Metric :=
  ⟨"CPUutilization" ++ toString (i + 1), .gauge (now.utilization (earlier.getD i .zero))⟩

/-- The gauges of a look, and what to compare the next one with. -/
def sample (s : Sampler) (content : String) : Except Error (Sampler × List Metric) := do
  let cores ← CoreTimes.parse content
  .ok (⟨cores⟩, cores.mapIdx fun i now => gauge s.earlier now i)

end Sampler
end Telemetry.Host
