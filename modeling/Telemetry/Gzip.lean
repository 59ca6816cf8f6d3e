import Telemetry.Deflate.Inflate
import Telemetry.Deflate.Block
import Telemetry.Hash.Crc32
import Telemetry.Text.Blank
import Telemetry.Text.Split

/-!
Gzip members. `decompress limit` reads the first member of a body and refuses one that holds more
than `limit` bytes; `decompress limit (compress x)` is `x` for every `x` within the limit.
-/

namespace Telemetry.Gzip

inductive Error
  | corrupt
  | tooLarge (limit : Nat)
deriving DecidableEq

/-- The most a body may inflate to unless something else is said. -/
def maxInflated : Nat := 32 * 1024 * 1024

/-- The longest name or comment in a header. -/
def maxField : Nat := 65535

/-- The position behind a zero byte, at most `fuel` bytes from `pos`. -/
def skipText (data : ByteArray) : Nat → Nat → Option Nat
  | 0, _ => none
  | fuel + 1, pos =>
    if pos < data.size then
      if Bytes.byteAt data pos == 0 then some (pos + 1) else skipText data fuel (pos + 1)
    else none

def number16 (data : ByteArray) (pos : Nat) : Nat :=
  (Bytes.byteAt data pos).toNat + 256 * (Bytes.byteAt data (pos + 1)).toNat

def number32 (data : ByteArray) (pos : Nat) : Nat :=
  number16 data pos + 65536 * number16 data (pos + 2)

def hasFlag (flags : UInt8) (mask : UInt8) : Bool := flags &&& mask != 0

def skipExtra (data : ByteArray) (flags : UInt8) (pos : Nat) : Option Nat :=
  if hasFlag flags 4 then
    let next := pos + 2 + number16 data pos
    if pos + 2 ≤ data.size ∧ next ≤ data.size then some next else none
  else some pos

def skipTextIf (data : ByteArray) (present : Bool) (pos : Nat) : Option Nat :=
  if present then skipText data (maxField + 1) pos else some pos

/-- The header's own checksum is the low half of that of all bytes before it. -/
def skipChecksum (data : ByteArray) (flags : UInt8) (pos : Nat) : Option Nat :=
  if hasFlag flags 2 then
    if pos + 2 ≤ data.size ∧ number16 data pos = (Crc32.ofRange data 0 pos).toNat % 65536 then
      some (pos + 2)
    else none
  else some pos

/-- The position behind the header: magic bytes, method 8, no reserved flag, then the fields that
the flags announce. -/
def header? (data : ByteArray) : Option Nat := do
  let flags := Bytes.byteAt data 3
  if data.size < 10 ∨ number16 data 0 ≠ 0x8b1f ∨ Bytes.byteAt data 2 ≠ 8 ∨ hasFlag flags 0xe0 then
    none
  let pos ← skipExtra data flags 10
  let pos ← skipTextIf data (hasFlag flags 8) pos
  let pos ← skipTextIf data (hasFlag flags 16) pos
  skipChecksum data flags pos

/-- Whether the checksum and the size at `pos` are those of `out`. -/
def trailerMatches (data : ByteArray) (pos : Nat) (out : ByteArray) : Bool :=
  pos + 8 ≤ data.size && number32 data pos == (Crc32.digest out).toNat &&
    number32 data (pos + 4) == out.size % 2 ^ 32

def decompress (limit : Nat) (data : ByteArray) : Except Error ByteArray :=
  match header? data with
  | none => .error .corrupt
  | some start =>
    match Deflate.inflate data limit (8 * start) with
    | .error .corrupt => .error .corrupt
    | .error .full => .error (.tooLarge limit)
    | .ok p =>
      if trailerMatches data ((p.pos + 7) / 8) p.out then .ok p.out else .error .corrupt

def magic : List UInt8 := [0x1f, 0x8b, 8, 0, 0, 0, 0, 0, 2, 255]

/-- A member with the given deflated body. -/
def member (body plain : ByteArray) : ByteArray :=
  Bytes.ofList magic ++ body ++
    Bytes.ofList (Bytes.littleEndian 4 (Crc32.digest plain).toNat ++
      Bytes.littleEndian 4 (plain.size % 2 ^ 32))

/-- One member that holds `plain`. -/
def compress (plain : ByteArray) : ByteArray := member (Deflate.deflate plain) plain

/-- Whether one of the codings in a header's list is gzip, parameters aside. -/
def isNamed (header : String) : Bool :=
  (Text.splitOn ',' header.toList).any fun part =>
    let name := Text.fold (Text.trim (part.takeWhile (· != ';')))
    name == "gzip".toList || name == "application/gzip".toList

end Telemetry.Gzip
