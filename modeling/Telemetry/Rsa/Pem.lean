import Telemetry.Bytes.Base64

/-!
One block of base64 between a begin and an end line of the same label. Text may stand before the
begin line; after the end line only the end of that line may. The lines between them are 64 digits
long but for the last.
-/

namespace Telemetry.Pem

def lineWidth : Nat := 64

def stripPrefix? : List Char → List Char → Option (List Char)
  | [], cs => some cs
  | _ :: _, [] => none
  | p :: ps, c :: cs => if p = c then stripPrefix? ps cs else none

def stripSuffix? (suffix cs : List Char) : Option (List Char) :=
  (stripPrefix? suffix.reverse cs.reverse).map List.reverse

/-- The text behind the end of a line. -/
def stripEol? : List Char → Option (List Char)
  | '\r' :: '\n' :: cs => some cs
  | '\n' :: cs => some cs
  | '\r' :: cs => some cs
  | _ => none

/-- The text before the end of a line that closes it. -/
def stripFinalEol? (cs : List Char) : Option (List Char) :=
  match cs.reverse with
  | '\n' :: '\r' :: rest => some rest.reverse
  | '\n' :: rest => some rest.reverse
  | '\r' :: rest => some rest.reverse
  | _ => none

/-- The text from the first line on that begins with `start`. -/
def fromLine? (start : List Char) : List Char → Option (List Char)
  | [] => none
  | c :: cs =>
    if c = '\x00' then none
    else if c = '\n' ∧ (stripPrefix? start cs).isSome then some cs
    else fromLine? start cs

/-- The digits of lines of `lineWidth`; `left` are missing from the current one. -/
def joinLines (left : Nat) : List Char → Option (List Char)
  | [] => some []
  | '\r' :: '\n' :: cs => if left = 0 then joinLines lineWidth cs else none
  | c :: cs =>
    match left with
    | 0 => if c = '\n' ∨ c = '\r' then joinLines lineWidth cs else none
    | n + 1 => (joinLines n cs).map (c :: ·)

/-- The bytes of the block with the given label. -/
def decode? (label : String) (text : String) : Option (List UInt8) := do
  let start := "-----BEGIN ".toList
  let cs ← if (stripPrefix? start text.toList).isSome then some text.toList
    else fromLine? start text.toList
  let cs ← stripPrefix? (start ++ label.toList ++ "-----".toList) cs
  let cs ← stripEol? cs
  let cs ← stripSuffix? ("-----END ".toList ++ label.toList ++ "-----".toList)
    ((stripFinalEol? cs).getD cs)
  let cs ← stripFinalEol? cs
  Base64.decode? (← joinLines lineWidth ((stripFinalEol? cs).getD cs))

end Telemetry.Pem
