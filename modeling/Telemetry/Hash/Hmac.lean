import Telemetry.Hash.Sha256

/-!
HMAC with SHA-256.
-/

namespace Telemetry.Hmac

/-- The key as one block: hashed first if it is longer. -/
def keyBlock (key : ByteArray) : List UInt8 :=
  let k := if 64 < key.size then Sha256.digest key else Bytes.toList key
  k ++ List.replicate (64 - k.length) 0

def digest (key message : ByteArray) : List UInt8 :=
  let k := keyBlock key
  let inner := Sha256.digest (Bytes.ofList (k.map (· ^^^ 0x36)) ++ message)
  Sha256.digest (Bytes.ofList (k.map (· ^^^ 0x5c) ++ inner))

end Telemetry.Hmac
