import Telemetry.Host.Keyed

/-!
The load averages of the host, the first three words of their file.
-/

namespace Telemetry.Host

structure Load where
  one : Real64
  five : Real64
  fifteen : Real64
deriving DecidableEq

namespace Load

def parse (content : String) : Except Error Load :=
  match ((Text.words content.toList).take 3).mapM Real64.parse? with
  | some [one, five, fifteen] => .ok ⟨one, five, fifteen⟩
  | _ => .error (.unexpected "loadavg" (Text.trimmed content))

def metrics (l : Load) : List Metric :=
  [⟨"LoadAverage1", .gauge l.one⟩, ⟨"LoadAverage5", .gauge l.five⟩,
    ⟨"LoadAverage15", .gauge l.fifteen⟩]

end Load
end Telemetry.Host
