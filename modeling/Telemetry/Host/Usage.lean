import Telemetry.Host.Keyed

/-!
The memory of the host and of a process, in bytes, and the threads of the process.
-/

namespace Telemetry.Host

structure MemoryInfo where
  total : Nat
  free : Nat
  available : Option Nat
deriving DecidableEq

namespace MemoryInfo

def keys : List String := ["MemTotal", "MemFree", "MemAvailable"]

def parse (content : String) : Except Error MemoryInfo := do
  let found ← readKeys "meminfo" keys content
  match found.find? "MemTotal", found.find? "MemFree" with
  | some total, some free => .ok ⟨total, free, found.find? "MemAvailable"⟩
  | _, _ => .error (.missing "meminfo" "MemTotal or MemFree")

def metrics (m : MemoryInfo) : List Metric :=
  [gaugeOfNat "TotalMemory" m.total, gaugeOfNat "FreeMemory" m.free] ++
    (m.available.map (gaugeOfNat "AvailableMemory")).toList

end MemoryInfo

structure ProcessInfo where
  resident : Nat
  virtual : Nat
  peak : Nat
  threads : Nat
deriving DecidableEq

namespace ProcessInfo

def keys : List String := ["VmRSS", "VmSize", "VmPeak", "Threads"]

def parse (content : String) : Except Error ProcessInfo := do
  let found ← readKeys "self/status" keys content
  match found.find? "VmRSS" with
  | some resident =>
    .ok ⟨resident, (found.find? "VmSize").getD 0, (found.find? "VmPeak").getD 0,
      (found.find? "Threads").getD 0⟩
  | none => .error (.missing "self/status" "VmRSS")

def metrics (p : ProcessInfo) : List Metric :=
  [gaugeOfNat "ProcessResident" p.resident, gaugeOfNat "ProcessVirtual" p.virtual,
    gaugeOfNat "ProcessPeakVirtual" p.peak, gaugeOfNat "ProcessThreads" p.threads]

end ProcessInfo
end Telemetry.Host
