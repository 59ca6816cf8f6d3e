import Telemetry.Frame.Basic
import Telemetry.Storage.Directory

/-!
Keys from texts and files.
-/

namespace Telemetry.Frame

def publicKey (pem : String) : Except Error Rsa.PublicKey :=
  match Rsa.PublicKey.parse? pem with
  | some key => .ok key
  | none => .error (.key .publicHalf)

def privateKey (pem : String) : Except Error Rsa.PrivateKey :=
  match Rsa.PrivateKey.parse? pem with
  | some key => .ok key
  | none => .error (.key .privateHalf)

def loadText (d : Directory) (path : String) : Except Error String :=
  match d.readText? path with
  | some text => .ok text
  | none => .error (.keyFile path)

def loadPublicKey (d : Directory) (path : String) : Except Error Rsa.PublicKey := do
  publicKey (← loadText d path)

def loadPrivateKey (d : Directory) (path : String) : Except Error Rsa.PrivateKey := do
  privateKey (← loadText d path)

end Telemetry.Frame
