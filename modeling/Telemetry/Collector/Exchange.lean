import Telemetry.Collector.Endpoint
import Telemetry.Frame.Basic

/-!
The whole way of a request: its frame is opened, then the endpoint answers, then the answer is
signed and compressed. The frame is looked at before the path, so a wrong signature is answered in
one way everywhere.
-/

namespace Telemetry.Collector

/-- Bodies that are read are no longer than this. -/
def maxBody : Nat := 8 * 1024 * 1024

def signatureHeader : String := "HashSHA256"

/-- The signature of a request; an empty one is none. -/
def signatureOf (q : Http.Request) : Option String :=
  ((q.header? signatureHeader).map Text.lossy).filter fun s => !s.isEmpty

/-- Whether a header names gzip. -/
def namesGzip (q : Http.Request) (header : String) : Bool :=
  (q.headerText? header).any Gzip.isNamed

/-- The body inside the frame of a request. -/
def unframe (c : Frame.Receiver) (q : Http.Request) : Except Error ByteArray :=
  if maxBody < q.body.size then .error .unreadable
  else match c.unframe q.body (signatureOf q) (namesGzip q "content-encoding") with
    | .ok plain => .ok plain
    | .error why => .error (.frame why)

/-- Signs JSON, and compresses JSON and HTML if the client accepts that. The signature is that of
the body before its compression. -/
def frame (c : Frame.Receiver) (acceptsGzip : Bool) (r : Http.Response) : Http.Response :=
  let isJson := r.contentType = some .json
  let signature := if isJson ∧ r.isSuccess then c.responseSignature r.body else none
  let gzipped := acceptsGzip && (isJson || r.contentType = some .html)
  { r with signature, gzipped, body := if gzipped then Gzip.compress r.body else r.body }

/-- The answer of an endpoint as a response. -/
def Handled.response (h : Handled) : Repository × Http.Response :=
  match h with
  | (r, .ok response) => (r, response)
  | (r, .error e) => (r, e.response)

/-- What stands behind the frame at a path: an endpoint, if the method is one of its methods. -/
def answer (q : Http.Request) (r : Repository) (plain : ByteArray) : Repository × Http.Response :=
  match Endpoint.ofTarget? q.target with
  | none => (r, .empty 404)
  | some e =>
    if q.method ∈ e.methods then (e.handle r plain).response else (r, .empty 405)

/-- The methods of the endpoint, if the method asked for is not among them. -/
def allowed (q : Http.Request) : Option String :=
  (Endpoint.ofTarget? q.target).bind fun e =>
    if q.method ∈ e.methods then none else some (",".intercalate e.methods)

/-- What goes over the wire: the answer to a request for the head has no body. -/
def finish (q : Http.Request) (r : Http.Response) : Http.Response :=
  { r with allow := allowed q, body := if q.method = "HEAD" then ByteArray.empty else r.body }

/-- The answer to a request, and the repository after it. -/
def respond (c : Frame.Receiver) (r : Repository) (q : Http.Request) :
    Repository × Http.Response :=
  match unframe c q with
  | .error e => (r, finish q e.response)
  | .ok plain =>
    let (r, response) := answer q r plain
    (r, finish q (frame c (namesGzip q "accept-encoding") response))

/-- Requests one after the other. -/
def respondAll (c : Frame.Receiver) (r : Repository) :
    List Http.Request → Repository × List Http.Response
  | [] => (r, [])
  | q :: qs =>
    let (r, response) := respond c r q
    let (r, responses) := respondAll c r qs
    (r, response :: responses)

end Telemetry.Collector
