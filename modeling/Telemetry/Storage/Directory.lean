import Telemetry.Bytes.Basic
import Telemetry.SortedMap
import Telemetry.Text.Split

/-!
Files and folders by their paths, and the few operations on them. A path is a text with slashes
between its parts; empty parts and single dots in it mean nothing. A `FileStep` is one operation
that either happens or does not, so a run that stops anywhere has done the first few of its steps.
-/

namespace Telemetry

namespace Path

def isAbsolute (path : String) : Bool := path.toList.head? == some '/'

def parts (path : String) : List String :=
  ((Text.splitOn '/' path.toList).filter fun p => p ≠ [] ∧ p ≠ ['.']).map String.ofList

/-- Whether only a folder can be meant: the path ends in a slash or a single dot. -/
def namesFolder (path : String) : Bool :=
  (Text.splitOn '/' path.toList).getLast?.any fun p => p = [] ∨ p = ['.']

def ofParts (absolute : Bool) (parts : List String) : String :=
  (if absolute then "/" else "") ++ "/".intercalate parts

/-- The folder a path lies in; empty for a name alone. -/
def parent (path : String) : String := ofParts (isAbsolute path) (parts path).dropLast

/-- The last part, if it is a name. -/
def fileName? (path : String) : Option String := (parts path).getLast?.filter (· ≠ "..")

/-- The path of another name in the same folder. -/
def sibling (path name : String) : String :=
  ofParts (isAbsolute path)
    ((match fileName? path with
      | some _ => (parts path).dropLast
      | none => parts path) ++ [name])

/-- The path and all folders above it, outermost first. -/
def ancestry (path : String) : List String :=
  let ps := parts path
  (List.range ps.length).map fun i => ofParts (isAbsolute path) (ps.take (i + 1))

/-- The path in its plainest form. -/
def normal (path : String) : String := ofParts (isAbsolute path) (parts path)

end Path

structure Directory where
  files : SortedMap ByteArray
  folders : List String

namespace Directory

def isFile (d : Directory) (path : String) : Bool := (d.files.find? (Path.normal path)).isSome

def isFolder (d : Directory) (path : String) : Bool := (Path.normal path) ∈ d.folders

def read? (d : Directory) (path : String) : Option ByteArray := d.files.find? (Path.normal path)

def write (d : Directory) (path : String) (content : ByteArray) : Directory :=
  { d with files := d.files.insert (Path.normal path) content }

def remove (d : Directory) (path : String) : Directory :=
  { d with files := d.files.filter (·.1 ≠ Path.normal path) }

/-- Makes the folder of a path unless something else is there. -/
def makeFolder? (d : Directory) (path : String) : Option Directory :=
  if d.isFolder path then some d
  else if d.isFile path then none
  else some { d with folders := d.folders ++ [path] }

/-- Makes a folder and those above it. -/
def makeFolders? (d : Directory) (path : String) : Option Directory :=
  (Path.ancestry path).foldlM makeFolder? d

/-- A file with its folders, in place of one that was there. -/
def put (d : Directory) (path : String) (content : ByteArray) : Directory :=
  ((d.makeFolders? (Path.parent path)).getD d).write path content

/-- A folder with these files in it, and nothing else. -/
def ofFiles (root : String) (files : List (String × ByteArray)) : Directory :=
  files.foldl (fun d (name, content) => d.put (root ++ "/" ++ name) content) ⟨[], [root]⟩

/-- An empty file, in place of one that was there; its folder has to be there. -/
def create? (d : Directory) (path : String) : Option Directory :=
  if d.isFolder (Path.parent path) && !d.isFolder path then some (d.write path ByteArray.empty)
  else none

def append? (d : Directory) (path : String) (content : ByteArray) : Option Directory :=
  (d.read? path).map fun old => d.write path (old ++ content)

/-- Moves a file over whatever file has the new name. -/
def rename? (d : Directory) (source target : String) : Option Directory :=
  match d.read? source with
  | some content =>
    if Path.namesFolder target || d.isFolder target || !d.isFolder (Path.parent target) then none
    else some ((d.remove source).write target content)
  | none => none

/-- What there is at a path for someone who wants to read it. -/
inductive Entry
  | file (content : ByteArray)
  | unreadable
  | absent

def entry (d : Directory) (path : String) : Entry :=
  match d.read? path with
  | some content => if Path.namesFolder path then .unreadable else .file content
  | none =>
    if d.isFolder path || (Path.ancestry path).any d.isFile then .unreadable else .absent

/-- A file that can be read as a text, if that is what its bytes are. -/
def readText? (d : Directory) (path : String) : Option String :=
  match d.entry path with
  | .file content => String.fromUTF8? content
  | _ => none

end Directory

inductive FileStep
  | makeFolders (path : String)
  | create (path : String)
  | append (path : String) (content : ByteArray)
  | sync (path : String)
  | rename (source target : String)

namespace FileStep

/-- The path that is named if the step fails. -/
def path : FileStep → String
  | makeFolders path => path
  | create path => path
  | append path _ => path
  | sync path => path
  | rename _ target => target

def perform? (d : Directory) : FileStep → Option Directory
  | makeFolders path => d.makeFolders? path
  | create path => d.create? path
  | append path content => d.append? path content
  | sync path => if d.isFile path then some d else none
  | rename source target => d.rename? source target

end FileStep

/-- Steps up to one that fails, which is returned as well. -/
def Directory.run (d : Directory) : List FileStep → Directory × Option FileStep
  | [] => (d, none)
  | step :: steps =>
    match step.perform? d with
    | some d => d.run steps
    | none => (d, some step)

end Telemetry
