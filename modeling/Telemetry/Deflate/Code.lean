import Telemetry.Bytes.Basic

/-!
Canonical prefix codes over a bit string. Bits are numbered from the low end of the first byte;
`decode` reads one symbol at a position and never looks past the end.
-/

namespace Telemetry.Deflate

def bit (data : ByteArray) (i : Nat) : Nat :=
  ((Bytes.byteAt data (i / 8) >>> UInt8.ofNat (i % 8)) &&& 1).toNat

/-- The number in `n` bits at `pos`, lowest bit first. -/
def bitsValue (data : ByteArray) : Nat → Nat → Nat
  | 0, _ => 0
  | n + 1, pos => bit data pos + 2 * bitsValue data n (pos + 1)

def bits? (data : ByteArray) (n pos : Nat) : Option Nat :=
  if pos + n ≤ 8 * data.size then some (bitsValue data n pos) else none

/-- How many codes there are of one bit, of two and so on, and the symbols in the order of their
codes. -/
structure Code where
  counts : List Nat
  symbols : Array Nat

namespace Code

def maxLength : Nat := 15

/-- The canonical code with these code lengths; a symbol of length zero is not in it. -/
def ofLengths (lengths : List Nat) : Code where
  counts := (List.range maxLength).map fun i => lengths.count (i + 1)
  symbols := ((List.range maxLength).flatMap fun i =>
    (lengths.zipIdx.filter fun p => p.1 == i + 1).map (·.2)).toArray

/-- The part of all bit strings that begin with a codeword, in units of `2 ^ -15`. -/
def coverage (c : Code) : Nat := c.counts.foldl (fun n k => 2 * n + k) 0

/-- Every bit string begins with exactly one codeword. -/
def isComplete (c : Code) : Bool := c.coverage == 2 ^ maxLength

/-- Besides the complete codes, one of a single codeword, or of none, can be used. -/
def isUsable (c : Code) : Bool := c.isComplete || c.symbols.size ≤ 1

/-- The codewords of one length are consecutive numbers, `first` the lowest; `index` symbols have
shorter ones. -/
def decodeFrom (data : ByteArray) (symbols : Array Nat) :
    List Nat → Nat → Nat → Nat → Nat → Option (Nat × Nat)
  | [], _, _, _, _ => none
  | count :: counts, word, first, index, pos =>
    if pos < 8 * data.size then
      let word := word + bit data pos
      if word < first + count then
        (symbols[index + (word - first)]?).map fun s => (s, pos + 1)
      else
        decodeFrom data symbols counts (2 * word) (2 * (first + count)) (index + count) (pos + 1)
    else none

/-- The symbol at `pos` and the position behind its codeword. -/
def decode (c : Code) (data : ByteArray) (pos : Nat) : Option (Nat × Nat) :=
  decodeFrom data c.symbols c.counts 0 0 0 pos

end Code

/-- The literals, the end of a block and the match lengths of blocks without a code of their own. -/
def fixedLengths : List Nat :=
  List.replicate 144 8 ++ List.replicate 112 9 ++ List.replicate 24 7 ++ List.replicate 8 8

def fixedLiterals : Code := Code.ofLengths fixedLengths

def fixedDistances : Code := Code.ofLengths (List.replicate 32 5)

/-- The order in which the lengths of the code for code lengths are given. -/
def lengthOrder : List Nat := [16, 17, 18, 0, 8, 7, 9, 6, 10, 5, 11, 4, 12, 3, 13, 2, 14, 1, 15]

/-- For each length symbol from 257 on, the shortest length and the count of extra bits. -/
def lengthTable : Array (Nat × Nat) :=
  #[(3, 0), (4, 0), (5, 0), (6, 0), (7, 0), (8, 0), (9, 0), (10, 0), (11, 1), (13, 1), (15, 1),
    (17, 1), (19, 2), (23, 2), (27, 2), (31, 2), (35, 3), (43, 3), (51, 3), (59, 3), (67, 4),
    (83, 4), (99, 4), (115, 4), (131, 5), (163, 5), (195, 5), (227, 5), (258, 0)]

/-- For each distance symbol, the least distance and the count of extra bits. -/
def distanceTable : Array (Nat × Nat) :=
  #[(1, 0), (2, 0), (3, 0), (4, 0), (5, 1), (7, 1), (9, 2), (13, 2), (17, 3), (25, 3), (33, 4),
    (49, 4), (65, 5), (97, 5), (129, 6), (193, 6), (257, 7), (385, 7), (513, 8), (769, 8),
    (1025, 9), (1537, 9), (2049, 10), (3073, 10), (4097, 11), (6145, 11), (8193, 12), (12289, 12),
    (16385, 13), (24577, 13)]

end Telemetry.Deflate
