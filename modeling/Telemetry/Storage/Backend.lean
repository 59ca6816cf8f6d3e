import Telemetry.Storage.Store
import Telemetry.Storage.Directory

/-!
Where a store is kept, as a text says it: nothing for memory, otherwise the path of a database,
with or without a scheme. A database that is opened is made if it is not there.
-/

namespace Telemetry

inductive Backend
  | memory
  | databaseInMemory
  | databaseFile (path : String)
deriving DecidableEq

/-- Files and databases by their paths. -/
structure Disk where
  directory : Directory
  databases : SortedMap Database

namespace Backend

open Storage (Error)

/-- What follows a text at the start of another. -/
def after? (start : List Char) (cs : List Char) : Option (List Char) :=
  if start.isPrefixOf cs then some (cs.drop start.length) else none

def holds (part : List Char) : List Char → Bool
  | [] => part.isEmpty
  | c :: cs => part.isPrefixOf (c :: cs) || holds part cs

/-- The path without the scheme before it. -/
def pathOf (dsn : List Char) : List Char :=
  ((after? "sqlite://".toList dsn).or (after? "sqlite:".toList dsn)).getD dsn

def ofDsn (dsn : Option String) : Except Error Backend :=
  let text := Text.trim (dsn.getD "").toList
  let path := pathOf text
  if text = [] then .ok memory
  else if holds "://".toList path then .error (.unopened (String.ofList text) .foreignScheme)
  else if path = ":memory:".toList then .ok databaseInMemory
  else if path = [] then .error (.unopened (String.ofList text) .missingPath)
  else .ok (databaseFile (String.ofList path))

end Backend

namespace Disk

open Storage (Error)

def withDirectory (d : Disk) (directory : Directory) : Disk := { d with directory := directory }

/-- The database at a path; an empty file is a new one. -/
def database (d : Disk) (path : String) : Except Error Database :=
  if d.directory.isFolder path then .error .failed
  else match d.databases.find? (Path.normal path) with
    | some content => .ok content
    | none =>
      match d.directory.read? path with
      | some content => if content.size = 0 then .ok .blank else .error .failed
      | none =>
        if d.directory.isFolder (Path.parent path) then .ok .blank else .error .failed

/-- Opens the database at a path, in a folder that is made if need be. -/
def openFile (d : Disk) (path : String) : Except Error (Disk × Store) := do
  let d ← match d.directory.makeFolders? (Path.parent path) with
    | some directory => .ok (d.withDirectory directory)
    | none => .error (.unopened path .folder)
  let content ← (← d.database path).migrate
  .ok ({ d with databases := d.databases.insert (Path.normal path) content },
    .database (some path) content)

def openStore (d : Disk) : Backend → Except Error (Disk × Store)
  | .memory => .ok (d, .memory .empty)
  | .databaseInMemory => do .ok (d, .database none (← Database.blank.migrate))
  | .databaseFile path => d.openFile path

/-- What a store leaves behind when it is closed. -/
def keep (d : Disk) : Store → Disk
  | .database (some path) content =>
    { d with databases := d.databases.insert (Path.normal path) content }
  | _ => d

end Disk
end Telemetry
