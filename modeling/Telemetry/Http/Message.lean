import Telemetry.Text.Utf8
import Telemetry.Text.Blank

/-!
Requests and responses. Of several headers with one name, in any case, the first counts.
-/

namespace Telemetry.Http

structure Request where
  method : String
  target : String
  headers : List (String × ByteArray)
  body : ByteArray

inductive ContentType
  | plain
  | json
  | html
deriving DecidableEq

def ContentType.text : ContentType → String
  | plain => "text/plain; charset=utf-8"
  | json => "application/json"
  | html => "text/html; charset=utf-8"

structure Response where
  status : Nat
  contentType : Option ContentType
  body : ByteArray
  /-- The methods that would have been allowed. -/
  allow : Option String
  signature : Option String
  gzipped : Bool

namespace Request

def header? (r : Request) (name : String) : Option ByteArray :=
  (r.headers.find? fun h => Text.fold h.1.toList == Text.fold name.toList).map (·.2)

/-- A byte that may stand in the text of a header. -/
def isTextByte (b : UInt8) : Bool := b == 9 || (32 ≤ b && b < 127)

/-- The text of a header, unless it holds anything but printable ASCII. -/
def headerText? (r : Request) (name : String) : Option String := do
  let value ← r.header? name
  if (Bytes.toList value).all isTextByte then String.fromUTF8? value else none

end Request

namespace Response

def empty (status : Nat) : Response := ⟨status, none, ByteArray.empty, none, none, false⟩

def of (status : Nat) (type : ContentType) (body : ByteArray) : Response :=
  ⟨status, some type, body, none, none, false⟩

def plain (status : Nat) (text : String) : Response := of status .plain text.toUTF8

def isSuccess (r : Response) : Bool := 200 ≤ r.status && r.status < 300

end Response
end Telemetry.Http
