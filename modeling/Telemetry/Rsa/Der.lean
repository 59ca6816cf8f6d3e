import Telemetry.Bytes.Basic

/-!
DER as far as RSA keys need it: elements with a tag and a definite length in its shortest form, and
integers that are not negative, without needless zeros.
-/

namespace Telemetry.Der

structure Element where
  tag : UInt8
  content : List UInt8
deriving DecidableEq

/-- A length and what follows it. From 128 on it takes a count of bytes and as few as will do. -/
def length? : List UInt8 → Option (Nat × List UInt8)
  | [] => none
  | b :: rest =>
    if b < 0x80 then some (b.toNat, rest)
    else
      let count := b.toNat - 0x80
      let n := Bytes.ofBigEndian (rest.take count)
      if count = 0 ∨ 4 < count ∨ rest.length < count then none
      else if n < 0x80 ∨ n < 256 ^ (count - 1) then none
      else some (n, rest.drop count)

def element? : List UInt8 → Option (Element × List UInt8)
  | [] => none
  | tag :: rest => do
    let (n, rest) ← length? rest
    if rest.length < n then none else some (⟨tag, rest.take n⟩, rest.drop n)

/-- Elements one after the other up to the last byte; each takes a byte at least. -/
def elementsFrom : Nat → List UInt8 → Option (List Element)
  | _, [] => some []
  | 0, _ => none
  | fuel + 1, bs => do
    let (e, rest) ← element? bs
    some (e :: (← elementsFrom fuel rest))

def elements? (bs : List UInt8) : Option (List Element) := elementsFrom bs.length bs

/-- The elements of the one sequence that the bytes are. -/
def sequence? (bs : List UInt8) : Option (List Element) := do
  match ← elements? bs with
  | [⟨0x30, content⟩] => elements? content
  | _ => none

/-- An integer that is not negative. -/
def Element.natural? (e : Element) : Option Nat :=
  if e.tag ≠ 0x02 then none
  else match e.content with
    | [] => none
    | [b] => if b < 0x80 then some b.toNat else none
    | 0 :: b :: rest => if b < 0x80 then none else some (Bytes.ofBigEndian (b :: rest))
    | b :: rest => if b < 0x80 then some (Bytes.ofBigEndian (b :: rest)) else none

end Telemetry.Der
