import Telemetry.Agent.Run
import Telemetry.Collector.Session
import Telemetry.Metric.Batch

/-!
The command line. `agent` polls the host once and prints its report as one line; `collector` reads
such lines, takes each as a request and prints the answers, and keeps the backup in its file.
-/

namespace Telemetry.Program

def variableNames : List String :=
  ["CONFIG", "ADDRESS", "POLL_INTERVAL", "REPORT_INTERVAL", "KEY", "RATE_LIMIT", "CRYPTO_KEY",
   "STORE_INTERVAL", "FILE_STORAGE_PATH", "RESTORE", "DATABASE_DSN"]

def readEnvironment : IO Environment := do
  let bindings ← variableNames.filterMapM fun name => do
    return (← IO.getEnv name).map fun value => (name, some value)
  return ⟨bindings, ""⟩

/-- The files that can be read, in a directory with no others. -/
def readFiles (paths : List String) : IO Directory :=
  paths.foldlM (fun d (path : String) => do
    match ← (IO.FS.readBinFile path).toBaseIO with
    | .ok content => return d.put path content
    | .error _ => return d) ⟨[], ["", "/"]⟩

/-- Writes a file that is in the directory, and makes the folders above it. -/
def writeFile (d : Directory) (path : String) : IO Unit := do
  if let some content := d.read? path then
    let folder := Path.parent path
    if folder ≠ "" then IO.FS.createDirAll folder
    IO.FS.writeBinFile path content

def sources : List String := ["/proc/stat", "/proc/meminfo", "/proc/loadavg", "/proc/self/status"]

def usage : String := "usage: telemetry (agent | collector) [options]"

def fail (code : UInt32) (text : String) : IO UInt32 := do
  IO.eprintln text
  return code

def runAgent (options : Agent.Options) : IO UInt32 := do
  let env ← readEnvironment
  let d ← readFiles (Settings.filePath env options.config).toList
  match Agent.Config.resolve d options env with
  | .error e => fail 1 e.message
  | .ok c =>
    match c.start (← readFiles c.cryptoKey.value.toList) with
    | .error e => fail 1 e.message
    | .ok _ =>
      let random := Real64.ofRatio false (← IO.rand 0 (2 ^ 53 - 1)) (2 ^ 53)
      match (Agent.firstPoll (← readFiles sources) "/proc" random).metrics with
      | .error e => fail 1 e.message
      | .ok metrics =>
        IO.println (Text.lossy (Bytes.ofList (Batch.encode metrics)))
        return 0

def request (line : String) : Http.Request :=
  ⟨"POST", "/updates", [("content-type", "application/json".toUTF8)], line.toUTF8⟩

def runCollector (options : Collector.Options) : IO UInt32 := do
  let env ← readEnvironment
  let d ← readFiles (Settings.filePath env options.config).toList
  match Collector.Config.resolve d options env with
  | .error e => fail 1 e.message
  | .ok c =>
    let d ← readFiles (c.storeFile.value :: c.cryptoKey.value.toList)
    let lines ← (← IO.getStdin).lines
    let run := Collector.run c ⟨d, []⟩ (lines.toList.map request)
    for response in run.responses do
      IO.println (Text.lossy response.body)
    writeFile run.disk.directory c.storeFile.value
    match run.failure with
    | some e => fail 1 e.message
    | none => return 0

end Telemetry.Program

open Telemetry in
def main (args : List String) : IO UInt32 :=
  match args with
  | "agent" :: args =>
    match Agent.Options.parse args with
    | .ok options => Program.runAgent options
    | .error _ => Program.fail 2 Program.usage
  | "collector" :: args =>
    match Collector.Options.parse args with
    | .ok options => Program.runCollector options
    | .error _ => Program.fail 2 Program.usage
  | _ => Program.fail 2 Program.usage
