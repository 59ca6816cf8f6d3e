import Telemetry.Deflate.Code

/-!
Writing bits, from the low end of each byte, and the codewords of canonical codes.
-/

namespace Telemetry.Deflate

/-- The whole bytes written, and the bits that do not fill one yet. -/
structure BitWriter where
  out : ByteArray
  value : Nat
  count : Nat

namespace BitWriter

def empty : BitWriter := ⟨ByteArray.empty, 0, 0⟩

def flush : Nat → BitWriter → BitWriter
  | 0, w => w
  | n + 1, w =>
    if w.count < 8 then w
    else flush n ⟨w.out.push (UInt8.ofNat (w.value % 256)), w.value / 256, w.count - 8⟩

/-- `n ≤ 24` bits more, lowest first. -/
def put (w : BitWriter) (n value : Nat) : BitWriter :=
  flush 4 { w with value := w.value + value * 2 ^ w.count, count := w.count + n }

/-- Zeros up to the end of a byte. -/
def pad (w : BitWriter) : BitWriter :=
  if w.count = 0 then w else w.put (8 - w.count) 0

def finish (w : BitWriter) : ByteArray := w.pad.out

end BitWriter

def reverseBits : Nat → Nat → Nat
  | 0, _ => 0
  | n + 1, value => value % 2 * 2 ^ n + reverseBits n (value / 2)

/-- The first codeword of `n` bits if there are this many of one bit, of two and so on. -/
def firstWord (counts : List Nat) (n : Nat) : Nat :=
  (counts.take (n - 1)).foldl (fun word k => 2 * (word + k)) 0

/-- A length and a codeword for each symbol. Codewords of one length are consecutive numbers, and
they are written from the highest bit on. -/
def wordsFor (lengths : List Nat) : Array (Nat × Nat) :=
  let counts := (List.range Code.maxLength).map fun i => lengths.count (i + 1)
  (lengths.zipIdx.map fun (n, symbol) =>
    (n, reverseBits n (firstWord counts n + (lengths.take symbol).count n))).toArray

def BitWriter.putSymbol (w : BitWriter) (words : Array (Nat × Nat)) (symbol : Nat) : BitWriter :=
  let (n, word) := words.getD symbol (0, 0)
  w.put n word

end Telemetry.Deflate
