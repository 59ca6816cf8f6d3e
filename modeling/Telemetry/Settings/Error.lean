import Telemetry.Settings.Environment

/-!
Why a program does not start with the configuration it was given.
-/

namespace Telemetry.Settings

inductive Error
  | unreadable (path : String)
  | malformed (path : String)
  | invalidPort (raw : String)
  | environment (problems : List Environment.Problem)
deriving DecidableEq

def Error.message : Error → String
  | unreadable path => "failed to read config file " ++ path ++ ": not a readable file"
  | malformed path => "failed to parse config file " ++ path ++ ": not a configuration"
  | invalidPort raw => "invalid port in address '" ++ raw ++ "'"
  | environment problems =>
    toString problems.length ++ " invalid environment variable(s): " ++
      "; ".intercalate (problems.map Environment.Problem.message)

/-- All that was wrong with the variables, if anything was. -/
def checkProblems (problems : List (Option Environment.Problem)) : Except Error Unit :=
  match problems.filterMap id with
  | [] => .ok ()
  | ps => .error (.environment ps)

end Telemetry.Settings
