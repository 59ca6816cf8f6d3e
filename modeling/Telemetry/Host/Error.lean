/-!
Why a file about the host is of no use.
-/

namespace Telemetry.Host

inductive Error
  | unreadable (path : String)
  | badValue (file key raw : String)
  | missing (file what : String)
  | unexpected (file content : String)
  | badCounters (label : String)
  | tooFewCounters (label : String)
  | noCores
deriving DecidableEq

/-- What the file does not say as it should. -/
def Error.reason : Error → String × String
  | unreadable path => (path, "not a readable text file")
  | badValue file key raw => (file, "bad value for " ++ key ++ ": '" ++ raw ++ "'")
  | missing file what => (file, "missing " ++ what)
  | unexpected file content => (file, "unexpected content '" ++ content ++ "'")
  | badCounters label => ("stat", "bad counters for " ++ label)
  | tooFewCounters label => ("stat", "too few counters for " ++ label)
  | noCores => ("stat", "no per-core cpu lines")

def Error.message : Error → String
  | unreadable path => "failed to read " ++ path ++ ": not a readable text file"
  | e => "failed to parse /proc/" ++ e.reason.1 ++ ": " ++ e.reason.2

end Telemetry.Host
