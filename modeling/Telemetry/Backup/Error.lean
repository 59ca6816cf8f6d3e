import Telemetry.Storage.Error

/-!
What can go wrong with a backup. Lines are counted from one.
-/

namespace Telemetry.Backup

inductive Error
  | io (path : String)
  | malformed (path : String) (line : Nat)
  | invalid (path : String) (line : Nat) (why : Rejection)
  | refused (path : String) (line : Nat) (why : Storage.Error)
  | store (why : Storage.Error)
deriving DecidableEq

def Error.message : Error → String
  | io path => "backup I/O on " ++ path ++ ": failed"
  | malformed path line => path ++ ":" ++ toString line ++ ": malformed record: not a record"
  | invalid path line why => path ++ ":" ++ toString line ++ ": invalid record: " ++ why.message
  | refused path line why => path ++ ":" ++ toString line ++ ": " ++ why.message
  | store why => why.message

end Telemetry.Backup
