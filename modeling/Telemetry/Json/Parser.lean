import Telemetry.Json.Token

/-!
JSON values from tokens. The containers still open are a list in the state, so nesting is bounded
by nothing.
-/

namespace Telemetry.Json

/-- A container that is still open. What it holds so far is kept last first; an object also holds
the name whose value is being read. -/
inductive Frame
  | array (items : List Json)
  | object (members : List (Quoted × Json)) (name : Quoted)

/-- What may come next, and the containers around it, innermost first. -/
inductive Parse
  | value (stack : List Frame)
  | firstItem (stack : List Frame)
  | firstName (stack : List Frame)
  | nextName (members : List (Quoted × Json)) (stack : List Frame)
  | colon (members : List (Quoted × Json)) (name : Quoted) (stack : List Frame)
  | after (value : Json) (stack : List Frame)

namespace Parse

def beginValue? (stack : List Frame) : Token → Option Parse
  | .null => some (.after .null stack)
  | .bool b => some (.after (.bool b) stack)
  | .number n => some (.after (.number n) stack)
  | .string s => some (.after (.string s) stack)
  | .openBracket => some (.firstItem stack)
  | .openBrace => some (.firstName stack)
  | _ => none

def step : Parse → Token → Option Parse
  | .value stack, t => beginValue? stack t
  | .firstItem stack, .closeBracket => some (.after (.array []) stack)
  | .firstItem stack, t => beginValue? (.array [] :: stack) t
  | .firstName stack, .closeBrace => some (.after (.object []) stack)
  | .firstName stack, .string s => some (.colon [] s stack)
  | .nextName members stack, .string s => some (.colon members s stack)
  | .colon members name stack, .colon => some (.value (.object members name :: stack))
  | .after v (.array items :: stack), .comma => some (.value (.array (v :: items) :: stack))
  | .after v (.array items :: stack), .closeBracket =>
    some (.after (.array (v :: items).reverse) stack)
  | .after v (.object members name :: stack), .comma =>
    some (.nextName ((name, v) :: members) stack)
  | .after v (.object members name :: stack), .closeBrace =>
    some (.after (.object ((name, v) :: members).reverse) stack)
  | _, _ => none

def finish? : Parse → Option Json
  | .after v [] => some v
  | _ => none

end Parse

def ofTokens? (tokens : List Token) : Option Json := do
  (← tokens.foldlM Parse.step (.value [])).finish?

/-- The one value that a text holds. -/
def parse? (bytes : List UInt8) : Option Json := do
  ofTokens? (← scan bytes)

end Telemetry.Json
