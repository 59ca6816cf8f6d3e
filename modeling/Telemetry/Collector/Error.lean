import Telemetry.Frame.Error
import Telemetry.Storage.Error
import Telemetry.Http.Message

/-!
Why a request fails, with the status and the text of the response to it.
-/

namespace Telemetry.Collector

inductive Error
  | invalid (why : Rejection)
  | frame (why : Frame.Error)
  | malformed
  /-- The body is too long to be read at all. -/
  | unreadable
  /-- The body is too long for a handler. -/
  | tooLong
  /-- A part of the path is no text. -/
  | badPath
  | refused (why : Storage.Error)
  | notFound
  | unavailable (why : Storage.Error)
deriving DecidableEq

namespace Error

def status : Error → Nat
  | invalid why => if why.isNotFound then 404 else 400
  | frame _ => 400
  | malformed => 400
  | unreadable => 400
  | tooLong => 413
  | badPath => 400
  | refused _ => 400
  | notFound => 404
  | unavailable _ => 500

def message : Error → String
  | invalid why => why.message
  | frame why => why.message
  | malformed => "malformed JSON: not what was expected"
  | unreadable => "failed to read request body: too long"
  | tooLong => "Failed to buffer the request body: too long"
  | badPath => "Invalid URL: not a text"
  | refused why => why.message
  | notFound => "metric not found"
  | unavailable why => "storage unavailable: " ++ why.message

def response (e : Error) : Http.Response := .plain e.status e.message

/-- What a failed read means: absence is no fault of the store. -/
def ofRead (why : Storage.Error) : Error :=
  if why.isNotFound then notFound else unavailable why

def ofWrite : Storage.Error → Error
  | .rejected why => invalid why
  | why => refused why

end Error
end Telemetry.Collector
