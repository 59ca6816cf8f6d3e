import Telemetry.Frame.Signature
import Telemetry.Rsa.Seal
import Telemetry.Gzip
import Telemetry.Metric.Batch

/-!
The frame around a body on its way to the collector: compressed, sealed if the sender has a public
key, and signed if it has a key for that. A receiver with the matching keys gets the body back.
-/

namespace Telemetry.Frame

/-- A key for signatures; an empty one is none. -/
def usableKey (key : Option ByteArray) : Option ByteArray := key.filter fun k => k.size != 0

structure Framed where
  body : ByteArray
  signature : Option String

structure Sender where
  key : Option ByteArray
  publicKey : Option Rsa.PublicKey

namespace Sender

def make (key : Option ByteArray) (publicKey : Option Rsa.PublicKey) : Sender :=
  ⟨usableKey key, publicKey⟩

def encrypts (s : Sender) : Bool := s.publicKey.isSome

/-- The compressed body, sealed if there is a key for that. -/
def encrypt (s : Sender) (noise : Rsa.Noise) (packed : ByteArray) : Except Error ByteArray :=
  match s.publicKey with
  | none => .ok packed
  | some key => do .ok (Bytes.ofList (← key.encrypt noise (Bytes.toList packed)))

def frame (s : Sender) (noise : Rsa.Noise) (plain : ByteArray) : Except Error Framed := do
  let body ← s.encrypt noise (Gzip.compress plain)
  .ok ⟨body, s.key.map fun key => sign key body⟩

def frameRecords (s : Sender) (noise : Rsa.Noise) (records : List Record) : Except Error Framed :=
  s.frame noise (Bytes.ofList (Batch.write records))

def frameMetrics (s : Sender) (noise : Rsa.Noise) (metrics : List Metric) : Except Error Framed :=
  s.frameRecords noise (metrics.map Record.ofMetric)

end Sender

structure Receiver where
  key : Option ByteArray
  privateKey : Option Rsa.PrivateKey

namespace Receiver

def make (key : Option ByteArray) (privateKey : Option Rsa.PrivateKey) : Receiver :=
  ⟨usableKey key, privateKey⟩

def signs (r : Receiver) : Bool := r.key.isSome

def decrypts (r : Receiver) : Bool := r.privateKey.isSome

/-- A signature counts only if there is a key for it. -/
def checkSignature (r : Receiver) (body : ByteArray) (signature : Option String) :
    Except Error Unit :=
  match r.key, signature with
  | some key, some s => verify key body s
  | _, _ => .ok ()

def decrypt (r : Receiver) (body : ByteArray) : Except Error ByteArray :=
  match r.privateKey with
  | none => .ok body
  | some key => do .ok (Bytes.ofList (← key.decrypt (Bytes.toList body)))

def decompress (body : ByteArray) : Except Error ByteArray :=
  match Gzip.decompress Gzip.maxInflated body with
  | .ok plain => .ok plain
  | .error .corrupt => .error .decompress
  | .error (.tooLarge limit) => .error (.tooLarge limit)

/-- The body inside a frame. An empty body is only checked for its signature. -/
def unframe (r : Receiver) (body : ByteArray) (signature : Option String) (gzipped : Bool) :
    Except Error ByteArray := do
  r.checkSignature body signature
  if body.size = 0 then .ok body
  else
    let plain ← r.decrypt body
    if gzipped then decompress plain else .ok plain

def responseSignature (r : Receiver) (body : ByteArray) : Option String :=
  r.key.map fun key => sign key body

end Receiver
end Telemetry.Frame
