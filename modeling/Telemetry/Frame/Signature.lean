import Telemetry.Hash.Hmac
import Telemetry.Bytes.Base64
import Telemetry.Text.Blank
import Telemetry.Frame.Error

/-!
Signatures of bodies: the base64 of an HMAC. White space around a signature is no part of it.
-/

namespace Telemetry.Frame

def sign (key body : ByteArray) : String :=
  String.ofList (Base64.encode (Hmac.digest key body))

def verify (key body : ByteArray) (signature : String) : Except Error Unit :=
  if Base64.decode? (Text.trim signature.toList) = some (Hmac.digest key body) then .ok ()
  else .error .signatureMismatch

end Telemetry.Frame
