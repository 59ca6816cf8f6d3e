import Telemetry.Settings.Address
import Telemetry.Settings.CommandLine
import Telemetry.Settings.File
import Telemetry.Frame.Keys
import Telemetry.Retry

/-!
The agent's configuration: defaults, then a file, then the command line, then the environment, each
over the one before it. An interval that comes out as zero is the default one.
-/

namespace Telemetry.Agent

def defaultPollInterval : Duration := .ofSeconds 2

def defaultReportInterval : Duration := .ofSeconds 10

def defaultRateLimit : Nat := 5

def maxRateLimit : Nat := 1024

def clientTimeout : Duration := .ofSeconds 5

/-- What the command line says. -/
structure Options where
  config : Option String := none
  address : Option String := none
  pollInterval : Option Duration := none
  reportInterval : Option Duration := none
  key : Option String := none
  rateLimit : Option Nat := none
  cryptoKey : Option String := none
  verbose : Bool := false

namespace Options

open CommandLine in
def flags : List (Flag Options) :=
  [⟨some 'c', "config", .one, path fun v o => { o with config := some v }⟩,
   ⟨some 'a', "address", .one, text fun v o => { o with address := some v }⟩,
   ⟨some 'p', "poll-interval", .one, duration fun v o => { o with pollInterval := some v }⟩,
   ⟨some 'r', "report-interval", .one, duration fun v o => { o with reportInterval := some v }⟩,
   ⟨some 'k', "key", .one, text fun v o => { o with key := some v }⟩,
   ⟨some 'l', "rate-limit", .one, number 1 maxRateLimit fun v o => { o with rateLimit := some v }⟩,
   ⟨none, "crypto-key", .one, path fun v o => { o with cryptoKey := some v }⟩,
   ⟨some 'v', "verbose", .none, fun _ o => .ok { o with verbose := true }⟩]

def parse (args : List String) : Except CommandLine.Error Options :=
  CommandLine.parse flags {} args

end Options

/-- What a configuration file says. -/
structure FileOptions where
  address : Option String := none
  pollInterval : Option Duration := none
  reportInterval : Option Duration := none
  rateLimit : Option Nat := none
  cryptoKey : Option String := none

def FileOptions.fieldNames : List String :=
  ["address", "poll_interval", "report_interval", "rate_limit", "crypto_key"]

def FileOptions.ofJson? (v : Json) : Option FileOptions :=
  match v.fields? fieldNames with
  | some [address, poll, report, rate, crypto] => do
    some ⟨← Json.fieldOr none Json.optionalText? address,
      ← Json.fieldOr none Duration.ofJson? poll, ← Json.fieldOr none Duration.ofJson? report,
      ← Json.fieldOr none Json.optionalWord64? rate,
      ← Json.fieldOr none Json.optionalText? crypto⟩
  | _ => none

structure Config where
  address : Sourced String
  pollInterval : Sourced Duration
  reportInterval : Sourced Duration
  key : Sourced (Option String)
  rateLimit : Sourced Nat
  cryptoKey : Sourced (Option String)
  clientTimeout : Duration
  retry : Retry.Policy

/-- An interval that is zero counts as not given. -/
def interval (standard : Duration) (s : Sourced Duration) : Sourced Duration :=
  if s.value.isZero then .default standard else s

namespace Config

/-- The configuration from what the file says, if there is one. The address is looked at before the
variables. -/
def resolveWith (o : Options) (file : FileOptions) (env : Environment) :
    Except Settings.Error Config := do
  let address := env.string "ADDRESS" (Settings.layered Settings.defaultAddress file.address o.address)
  let normal ← Settings.normalizeAddress address.value.value
  let poll := env.duration "POLL_INTERVAL"
    (Settings.layered defaultPollInterval file.pollInterval o.pollInterval)
  let report := env.duration "REPORT_INTERVAL"
    (Settings.layered defaultReportInterval file.reportInterval o.reportInterval)
  let key := env.optionalString "KEY" (Settings.layered none none (o.key.map some))
  let rate := env.word64 "RATE_LIMIT"
    (Settings.layered defaultRateLimit (file.rateLimit.filter (0 < ·)) o.rateLimit) 1 maxRateLimit
  let crypto := env.optionalString "CRYPTO_KEY"
    (Settings.layered none (file.cryptoKey.map some) (o.cryptoKey.map some))
  Settings.checkProblems [address.problem, poll.problem, report.problem, key.problem, rate.problem,
    crypto.problem]
  .ok
    { address := { address.value with value := normal }
      pollInterval := interval defaultPollInterval poll.value
      reportInterval := interval defaultReportInterval report.value
      key := key.value
      rateLimit := rate.value
      cryptoKey := crypto.value
      clientTimeout := Agent.clientTimeout
      retry := .standard }

def resolve (d : Directory) (o : Options) (env : Environment) : Except Settings.Error Config := do
  let file ← Settings.loadFile d FileOptions.ofJson? {} (Settings.filePath env o.config)
  resolveWith o file env

/-- The frame the configuration asks for, with the public key from its file. -/
def sender (d : Directory) (c : Config) : Except Frame.Error Frame.Sender := do
  let publicKey ← match c.cryptoKey.value with
    | none => .ok none
    | some path => do .ok (some (← Frame.loadPublicKey d path))
  .ok (.make (c.key.value.map String.toUTF8) publicKey)

end Config
end Telemetry.Agent
