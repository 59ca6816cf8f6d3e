import Telemetry.Bytes.Basic

/-!
CRC-32 with the reflected polynomial, a byte at a time.
-/

namespace Telemetry.Crc32

def shift (c : UInt32) : Nat → UInt32
  | 0 => c
  | n + 1 => shift (if c &&& 1 = 1 then (c >>> 1) ^^^ 0xedb88320 else c >>> 1) n

def table : Array UInt32 := Array.ofFn fun i : Fin 256 => shift (UInt32.ofNat i) 8

def step (c : UInt32) (b : UInt8) : UInt32 :=
  table.getD (c.toUInt8 ^^^ b).toNat 0 ^^^ (c >>> 8)

def steps (b : ByteArray) : Nat → Nat → UInt32 → UInt32
  | 0, _, c => c
  | n + 1, i, c => steps b n (i + 1) (step c (Bytes.byteAt b i))

/-- The checksum of `n` bytes from `start` on. -/
def ofRange (b : ByteArray) (start n : Nat) : UInt32 := ~~~ steps b n start 0xffffffff

def digest (b : ByteArray) : UInt32 := ofRange b 0 b.size

end Telemetry.Crc32
