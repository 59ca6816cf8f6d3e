import Telemetry.Metric.Basic

/-!
Why a store refuses a request, cannot be reached or cannot be opened.
-/

namespace Telemetry.Storage

/-- Why there is no store where one was asked for. -/
inductive Obstacle
  | foreignScheme
  | missingPath
  | folder
deriving DecidableEq

def Obstacle.message : Obstacle → String
  | foreignScheme => "only sqlite DSNs are supported"
  | missingPath => "missing database path"
  | folder => "its folder cannot be made"

inductive Error
  | rejected (why : Rejection)
  | notFound (name : String)
  /-- The database does not answer as one. -/
  | failed
  | unopened (dsn : String) (why : Obstacle)
  | newerSchema (found supported : Nat)
  | poisoned
deriving DecidableEq

namespace Error

def message : Error → String
  | rejected why => why.message
  | notFound name => "metric '" ++ name ++ "' not found"
  | failed => "storage error: not a usable database"
  | unopened dsn why => "failed to open storage '" ++ dsn ++ "': " ++ why.message
  | newerSchema found supported =>
    "database schema version " ++ toString found ++ " is newer than supported version " ++
      toString supported
  | poisoned => "repository lock poisoned"

def isNotFound : Error → Bool
  | notFound _ => true
  | rejected why => why.isNotFound
  | _ => false

end Error
end Telemetry.Storage
