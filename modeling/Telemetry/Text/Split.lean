/-!
Cutting texts at separators. The parts of `splitOn`, with the separator put between them again, are
the text; `lines` also drops a carriage return before each line feed.
-/

namespace Telemetry.Text

/-- The parts between separators. `part` is the one being read, last first. -/
def splitFrom [DecidableEq α] (separator : α) (part : List α) : List α → List (List α)
  | [] => [part.reverse]
  | c :: cs =>
    if c = separator then part.reverse :: splitFrom separator [] cs
    else splitFrom separator (c :: part) cs

def splitOn [DecidableEq α] (separator : α) (cs : List α) : List (List α) :=
  splitFrom separator [] cs

/-- What stands before and after the first separator, if there is one. -/
def splitOnce? [DecidableEq α] (separator : α) (cs : List α) : Option (List α × List α) :=
  match cs.span (· ≠ separator) with
  | (before, _ :: after) => some (before, after)
  | (_, []) => none

/-- A line without the carriage return before its end. -/
def chomp [DecidableEq α] (carriageReturn : α) (line : List α) : List α :=
  match line.reverse with
  | [] => []
  | c :: cs => if c = carriageReturn then cs.reverse else line

/-- The lines of a text; the end of the last line may be missing. -/
def linesWith [DecidableEq α] (lineFeed carriageReturn : α) (cs : List α) : List (List α) :=
  let parts := splitOn lineFeed cs
  let closed := (parts.dropLast).map (chomp carriageReturn)
  match parts.getLast? with
  | some [] => closed
  | some last => closed ++ [last]
  | none => closed

def lines (cs : List Char) : List (List Char) := linesWith '\n' '\r' cs

def lineBytes (bs : List UInt8) : List (List UInt8) := linesWith 10 13 bs

end Telemetry.Text
