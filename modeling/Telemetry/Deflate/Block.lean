import Telemetry.Deflate.Matches
import Telemetry.Deflate.Lengths
import Telemetry.Deflate.Writer

/-!
Deflating. A short block uses the fixed code, a longer one a code of its own, and bytes that no code
makes shorter are stored as they are. Inflating what `deflate` writes gives the bytes back.
-/

namespace Telemetry.Deflate

/-- One step in the list of code lengths: a length, or a symbol from 16 on and how much more than
its least it repeats. -/
structure LengthStep where
  symbol : Nat
  more : Nat
deriving DecidableEq, Inhabited

namespace LengthStep

/-- How many bits `more` takes. -/
def moreBits (s : LengthStep) : Nat :=
  if s.symbol = 16 then 2 else if s.symbol = 17 then 3 else if s.symbol = 18 then 7 else 0

def ofZeros (n : Nat) : List LengthStep :=
  if n < 3 then List.replicate n ⟨0, 0⟩ else if n < 11 then [⟨17, n - 3⟩] else [⟨18, n - 11⟩]

def ofRepeats (length n : Nat) : List LengthStep :=
  if n < 3 then List.replicate n ⟨length, 0⟩ else [⟨16, n - 3⟩]

/-- The steps for `n` equal lengths. -/
def ofRun (length n : Nat) : List LengthStep :=
  if length = 0 then List.replicate (n / 138) ⟨18, 127⟩ ++ ofZeros (n % 138)
  else
    ⟨length, 0⟩ :: (List.replicate ((n - 1) / 6) ⟨16, 3⟩ ++ ofRepeats length ((n - 1) % 6))

def ofLengths (lengths : List Nat) : List LengthStep :=
  (lengths.splitBy (· == ·)).flatMap fun run => ofRun (run.headD 0) run.length

end LengthStep

/-- How often each of `n` symbols is in a list. -/
def occurrences (n : Nat) (symbols : Array Nat) : List Nat :=
  (symbols.foldl (fun counts s => counts.modify s (· + 1)) (Array.replicate n 0)).toList

/-- A list without the zeros at its end, but of `least` elements at least. -/
def trimmed (least : Nat) (lengths : List Nat) : List Nat :=
  lengths.take (max least (lengths.length - (lengths.reverse.takeWhile (· == 0)).length))

/-- The lengths of both codes of a block of its own code. -/
def lengthsOf (tokens : Array Token) : List Nat × List Nat :=
  (trimmed 257 (lengthsFor 15 (occurrences 286 ((tokens.map Token.symbol).push 256))),
   trimmed 1 (lengthsFor 15 (occurrences 30 (tokens.filterMap Token.distanceSymbol?))))

namespace BitWriter

/-- Announces the two codes of a block. -/
def putCodes (w : BitWriter) (literals distances : List Nat) : BitWriter :=
  let steps := LengthStep.ofLengths (literals ++ distances)
  let lengths := lengthsFor 7 (occurrences 19 (steps.map LengthStep.symbol).toArray)
  let given := trimmed 4 (lengthOrder.map fun symbol => lengths.getD symbol 0)
  let w := ((w.put 5 (literals.length - 257)).put 5 (distances.length - 1)).put 4 (given.length - 4)
  let words := wordsFor lengths
  steps.foldl (fun w s => (w.putSymbol words s.symbol).put s.moreBits s.more)
    (given.foldl (fun w n => w.put 3 n) w)

def putToken (literals distances : Array (Nat × Nat)) (w : BitWriter) : Token → BitWriter
  | .literal byte => w.putSymbol literals byte.toNat
  | .repetition length distance =>
    let (i, least, extra) := rowFor lengthTable length
    let w := (w.putSymbol literals (257 + i)).put extra (length - least)
    let (i, least, extra) := rowFor distanceTable distance
    (w.putSymbol distances i).put extra (distance - least)

/-- The tokens of a block and its end. -/
def putTokens (w : BitWriter) (literals distances : List Nat) (tokens : Array Token) : BitWriter :=
  let words := wordsFor literals
  (tokens.foldl (putToken words (wordsFor distances)) w).putSymbol words 256

/-- A block's bytes as they are: their number, its complement and the bytes. -/
def putStored (w : BitWriter) (data : ByteArray) (b : Block) : BitWriter :=
  let w := (((w.put 2 0).pad.put 16 b.size).put 16 (0xffff - b.size))
  { w with out := w.out ++ data.extract b.start (b.start + b.size) }

def putCoded (w : BitWriter) (b : Block) : BitWriter :=
  if b.size < 48 then (w.put 2 1).putTokens fixedLengths (List.replicate 32 5) b.tokens
  else
    let (literals, distances) := lengthsOf b.tokens
    ((w.put 2 2).putCodes literals distances).putTokens literals distances b.tokens

def putBlock (data : ByteArray) (w : BitWriter) (b : Block) (last : Bool) : BitWriter :=
  let w := w.put 1 last.toNat
  let coded := w.putCoded b
  if 32 < b.size ∧ b.size ≤ coded.out.size - w.out.size + 1 ∧ b.kept then w.putStored data b
  else coded

end BitWriter

def deflate (data : ByteArray) : ByteArray :=
  let blocks := blocksOf data
  (blocks.foldl (fun (w, left) b => (w.putBlock data b (left == 1), left - 1))
    (BitWriter.empty, blocks.size)).1.finish

end Telemetry.Deflate
