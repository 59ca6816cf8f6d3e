import Telemetry.Bytes.Basic

/-!
Reading bytes that may not be UTF-8: what cannot be read becomes the replacement character, once for
the longest beginning of a character that is broken off, and else once for every byte.
-/

namespace Telemetry.Text

def replacement : Char := '\ufffd'

/-- The character that the first `n` bytes are, if they are one. -/
def charOf? (n : Nat) (bs : List UInt8) : Option Char :=
  match (String.fromUTF8? (Bytes.ofList (bs.take n))).map String.toList with
  | some [c] => some c
  | _ => none

/-- The first character with the number of its bytes. -/
def firstChar? (bs : List UInt8) : Option (Char × Nat) :=
  [1, 2, 3, 4].findSome? fun n => (charOf? n bs).map (·, n)

/-- Whether more bytes would make a character of these. From the second byte on any others do. -/
def isBegun (bs : List UInt8) : Bool :=
  [1, 2].any fun k => (charOf? (bs.length + k) (bs ++ List.replicate k 0x80)).isSome

/-- How many bytes are given up where no character can be read. -/
def brokenLength (bs : List UInt8) : Nat :=
  ([3, 2].find? fun n => n ≤ bs.length && isBegun (bs.take n)).getD 1

/-- The characters behind the next `skip` bytes. -/
def lossyFrom (skip : Nat) : List UInt8 → List Char
  | [] => []
  | b :: bs =>
    match skip with
    | skip + 1 => lossyFrom skip bs
    | 0 =>
      match firstChar? (b :: bs) with
      | some (c, n) => c :: lossyFrom (n - 1) bs
      | none => replacement :: lossyFrom (brokenLength (b :: bs) - 1) bs

def lossy (b : ByteArray) : String := String.ofList (lossyFrom 0 (Bytes.toList b))

end Telemetry.Text
