import Telemetry.Power

/-!
Byte strings: `ByteArray` where bodies are held, `List UInt8` where they are taken apart. The two
are the same thing (`toList_ofList`, `ofList_toList`).
-/

namespace Telemetry.Bytes

def toList (b : ByteArray) : List UInt8 := b.data.toList

def ofList (bs : List UInt8) : ByteArray := ⟨bs.toArray⟩

@[simp] theorem toList_ofList (bs : List UInt8) : toList (ofList bs) = bs := by
  simp [toList, ofList]

@[simp] theorem ofList_toList (b : ByteArray) : ofList (toList b) = b := by
  cases b; simp [toList, ofList]

/-- The byte at `i`, zero past the end. -/
def byteAt (b : ByteArray) (i : Nat) : UInt8 := if h : i < b.size then b[i] else 0

def fill (byte : UInt8) : Nat → ByteArray → ByteArray
  | 0, b => b
  | n + 1, b => fill byte n (b.push byte)

/-- The low `count` bytes of a number, the highest first. -/
def bigEndian (count : Nat) (n : Nat) : List UInt8 :=
  (List.range count).map fun i => UInt8.ofNat (n / 256 ^ (count - 1 - i))

def ofBigEndian (bs : List UInt8) : Nat := bs.foldl (fun n b => 256 * n + b.toNat) 0

/-- The low `count` bytes of a number, the lowest first. -/
def littleEndian (count : Nat) (n : Nat) : List UInt8 :=
  (List.range count).map fun i => UInt8.ofNat (n / 256 ^ i)

def ofLittleEndian (bs : List UInt8) : Nat := bs.foldr (fun b n => b.toNat + 256 * n) 0

end Telemetry.Bytes
