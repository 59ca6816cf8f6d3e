import Telemetry.Collector.Config
import Telemetry.Collector.Exchange
import Telemetry.Backup.Restore
import Telemetry.Storage.Backend

/-!
A run of the collector from its start to its end. A store in memory is restored from its backup
first and backed up last, after all requests.
-/

namespace Telemetry.Collector

/-- What ends a run before its time. -/
inductive Failure
  | decryptionKey
  | repository
  | backup
deriving DecidableEq

def Failure.message : Failure → String
  | decryptionKey => "failed to load decryption key"
  | repository => "failed to open metric repository"
  | backup => "backup task panicked"

/-- The store at the start: what the backup holds, as far as it can be replayed. -/
def restored (c : Config) (d : Directory) (s : Store) : Store :=
  if c.restore.value then (Backup.restore c.storeFile.value d s).1 else s

structure Run where
  disk : Disk
  responses : List Http.Response
  failure : Option Failure

def Run.failed (disk : Disk) (why : Failure) : Run := ⟨disk, [], some why⟩

/-- A run with a store that keeps itself. -/
def runDurable (receiver : Frame.Receiver) (disk : Disk) (s : Store)
    (requests : List Http.Request) : Run :=
  let (r, responses) := respondAll receiver (.make s) requests
  ⟨disk.keep r.store, responses, none⟩

/-- A run with a store that is backed up. -/
def runBackedUp (c : Config) (receiver : Frame.Receiver) (disk : Disk) (s : Store)
    (requests : List Http.Request) : Run :=
  let service := Backup.Service.start (restored c disk.directory s) disk.directory
    c.storeFile.value c.backupMode 0
  let (r, responses) := respondAll receiver (.make service.store) requests
  let service := { service with store := r.store }.close
  ⟨disk.withDirectory service.directory, responses,
    if service.isStopped then none else some .backup⟩

def run (c : Config) (disk : Disk) (requests : List Http.Request) : Run :=
  match c.receiver disk.directory with
  | .error _ => .failed disk .decryptionKey
  | .ok receiver =>
    match (Backend.ofDsn c.databaseDsn.value).bind disk.openStore with
    | .error _ => .failed disk .repository
    | .ok (disk, s) =>
      if s.isDurable then runDurable receiver disk s requests
      else runBackedUp c receiver disk s requests

end Telemetry.Collector
