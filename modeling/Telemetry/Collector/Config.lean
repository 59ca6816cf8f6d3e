import Telemetry.Settings.Address
import Telemetry.Settings.CommandLine
import Telemetry.Settings.File
import Telemetry.Frame.Keys
import Telemetry.Backup.Task

/-!
The collector's configuration, layered like the agent's. A store interval of zero asks for a backup
after every write.
-/

namespace Telemetry.Collector

def defaultStoreInterval : Duration := .ofSeconds 300

def defaultStoreFile : String := "backup.dat"

/-- What the command line says. -/
structure Options where
  config : Option String := none
  address : Option String := none
  storeInterval : Option Duration := none
  storeFile : Option String := none
  restore : Option Bool := none
  databaseDsn : Option String := none
  key : Option String := none
  cryptoKey : Option String := none
  verbose : Bool := false

namespace Options

open CommandLine in
def flags : List (Flag Options) :=
  [⟨some 'c', "config", .one, path fun v o => { o with config := some v }⟩,
   ⟨some 'a', "address", .one, text fun v o => { o with address := some v }⟩,
   ⟨some 'i', "store-interval", .one, duration fun v o => { o with storeInterval := some v }⟩,
   ⟨some 'f', "store-file", .one, path fun v o => { o with storeFile := some v }⟩,
   ⟨some 'r', "restore", .optional "true", truth fun v o => { o with restore := some v }⟩,
   ⟨some 'd', "database-dsn", .one, text fun v o => { o with databaseDsn := some v }⟩,
   ⟨some 'k', "key", .one, text fun v o => { o with key := some v }⟩,
   ⟨none, "crypto-key", .one, path fun v o => { o with cryptoKey := some v }⟩,
   ⟨some 'v', "verbose", .none, fun _ o => .ok { o with verbose := true }⟩]

def parse (args : List String) : Except CommandLine.Error Options :=
  CommandLine.parse flags {} args

end Options

/-- What a configuration file says. -/
structure FileOptions where
  address : Option String := none
  restore : Option Bool := none
  storeInterval : Option Duration := none
  storeFile : Option String := none
  databaseDsn : Option String := none
  cryptoKey : Option String := none

def FileOptions.fieldNames : List String :=
  ["address", "restore", "store_interval", "store_file", "database_dsn", "crypto_key"]

def FileOptions.ofJson? (v : Json) : Option FileOptions :=
  match v.fields? fieldNames with
  | some [address, restore, interval, file, dsn, crypto] => do
    some ⟨← Json.fieldOr none Json.optionalText? address,
      ← Json.fieldOr none Json.optionalBool? restore, ← Json.fieldOr none Duration.ofJson? interval,
      ← Json.fieldOr none Json.optionalText? file, ← Json.fieldOr none Json.optionalText? dsn,
      ← Json.fieldOr none Json.optionalText? crypto⟩
  | _ => none

structure Config where
  address : Sourced String
  storeInterval : Sourced Duration
  storeFile : Sourced String
  restore : Sourced Bool
  databaseDsn : Sourced (Option String)
  key : Sourced (Option String)
  cryptoKey : Sourced (Option String)

/-- A text that is more than white space. -/
def substantial (s : Option String) : Option String :=
  s.filter fun t => Text.trim t.toList ≠ []

namespace Config

/-- The configuration from what the file says, if there is one. The address is looked at before the
variables. -/
def resolveWith (o : Options) (file : FileOptions) (env : Environment) :
    Except Settings.Error Config := do
  let address := env.string "ADDRESS"
    (Settings.layered Settings.defaultAddress file.address o.address)
  let normal ← Settings.normalizeAddress address.value.value
  let interval := env.duration "STORE_INTERVAL"
    (Settings.layered defaultStoreInterval file.storeInterval o.storeInterval)
  let storeFile := env.optionalString "FILE_STORAGE_PATH"
    (Settings.layered (some defaultStoreFile) (file.storeFile.map some) (o.storeFile.map some))
  let restore := env.bool "RESTORE" (Settings.layered true file.restore o.restore)
  let dsn := env.optionalString "DATABASE_DSN"
    (Settings.layered none (file.databaseDsn.map some) (o.databaseDsn.map some))
  let key := env.optionalString "KEY" (Settings.layered none none (o.key.map some))
  let crypto := env.optionalString "CRYPTO_KEY"
    (Settings.layered none (file.cryptoKey.map some) (o.cryptoKey.map some))
  Settings.checkProblems [address.problem, interval.problem, storeFile.problem, restore.problem,
    dsn.problem, key.problem, crypto.problem]
  .ok
    { address := { address.value with value := normal }
      storeInterval := interval.value
      storeFile := storeFile.value.map fun p => p.getD defaultStoreFile
      restore := restore.value
      databaseDsn := dsn.value.map substantial
      key := key.value
      cryptoKey := crypto.value }

def resolve (d : Directory) (o : Options) (env : Environment) : Except Settings.Error Config := do
  let file ← Settings.loadFile d FileOptions.ofJson? {} (Settings.filePath env o.config)
  resolveWith o file env

def backupMode (c : Config) : Backup.Mode := .ofInterval c.storeInterval.value

/-- The frame that requests come in, with the private key from its file. -/
def receiver (d : Directory) (c : Config) : Except Frame.Error Frame.Receiver := do
  let privateKey ← match c.cryptoKey.value with
    | none => .ok none
    | some path => do .ok (some (← Frame.loadPrivateKey d path))
  .ok (.make (c.key.value.map String.toUTF8) privateKey)

end Config
end Telemetry.Collector
