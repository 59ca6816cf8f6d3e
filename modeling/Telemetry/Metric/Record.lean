import Telemetry.Metric.Basic
import Telemetry.Json.Parser
import Telemetry.Json.Text

/-!
The record a metric travels as, `id`, `type`, `value` and `delta`: a gauge fills `value`, a counter
`delta`. A record is read from an object with its members in any order or from an array in this
order; a metric read back from its own record is the same metric.
-/

namespace Telemetry

structure Record where
  id : String
  type : String
  value : Option Real64
  delta : Option Int64
deriving DecidableEq

namespace Json

/-- The members of an object by their names, if every name is text. -/
def namedMembers? (members : List (Quoted × Json)) : Option (List (String × Json)) :=
  members.mapM fun (name, v) => do some ((← name.text?), v)

/-- The member of a name; `none` if there are two. -/
def member? (name : String) (members : List (String × Json)) : Option (Option Json) :=
  match members.filter (·.1 == name) with
  | [] => some none
  | [(_, v)] => some (some v)
  | _ => none

/-- The values of a record with these fields, whether written as an object, where other members
are skipped, or as an array, which may stop early. -/
def fields? (names : List String) : Json → Option (List (Option Json))
  | .object members => do
    let named ← namedMembers? members
    names.mapM fun name => member? name named
  | .array items =>
    if items.length ≤ names.length then
      some (items.map some ++ List.replicate (names.length - items.length) none)
    else none
  | _ => none

def text? : Json → Option String
  | .string s => s.text?
  | _ => none

def optionalReal? : Json → Option (Option Real64)
  | .null => some none
  | .number n => n.real?.map some
  | _ => none

def optionalInt64? : Json → Option (Option Int64)
  | .null => some none
  | .number n => do some (some (← Text.int64? (← n.int?)))
  | _ => none

/-- What a field reads as, and what its absence stands for. -/
def fieldOr (absent : α) (read? : Json → Option α) : Option Json → Option α
  | none => some absent
  | some v => read? v

end Json

namespace Record

def fieldNames : List String := ["id", "type", "value", "delta"]

def ofJson? (v : Json) : Option Record :=
  match v.fields? fieldNames with
  | some [id, type, value, delta] => do
    some ⟨← Json.fieldOr "" Json.text? id, ← Json.fieldOr "" Json.text? type,
      ← Json.fieldOr none Json.optionalReal? value, ← Json.fieldOr none Json.optionalInt64? delta⟩
  | _ => none

def parse? (bytes : List UInt8) : Option Record := do ofJson? (← Json.parse? bytes)

def write (r : Record) : List UInt8 :=
  Json.utf8 "\x7b\"id\":" ++ Json.writeText r.id ++ Json.utf8 ",\"type\":" ++ Json.writeText r.type ++
    (match r.value with
      | some x => Json.utf8 ",\"value\":" ++ Json.writeReal x
      | none => []) ++
    (match r.delta with
      | some n => Json.utf8 ",\"delta\":" ++ Json.writeInt n.toInt
      | none => []) ++
    Json.utf8 "\x7d"

def ofMetric (m : Metric) : Record :=
  match m.value with
  | .gauge x => ⟨m.name, Kind.gauge.name, some x, none⟩
  | .counter n => ⟨m.name, Kind.counter.name, none, some n⟩

/-- The kind and name a record asks for. An unknown kind is told before an empty name. -/
def key (r : Record) : Except Rejection (Kind × String) := do
  let kind ← Kind.parse r.type
  if r.id.isEmpty then .error .emptyName else .ok (kind, r.id)

def toMetric (r : Record) : Except Rejection Metric := do
  let (kind, name) ← r.key
  let value? := match kind with
    | .gauge => r.value.map Value.gauge
    | .counter => r.delta.map Value.counter
  match value? with
  | some v => .ok ⟨name, v⟩
  | none => .error (.missingValue name kind)

end Record
end Telemetry
