import Telemetry.Deflate.Code

/-!
Inflating up to a limit. The output is the same for every limit that it fits; a limit that it does
not fit is found out at the first byte beyond it, whatever comes after.
-/

namespace Telemetry.Deflate

inductive Fault
  | corrupt
  | full
deriving DecidableEq

/-- What has been inflated, and the position in the bits. -/
structure Progress where
  out : ByteArray
  pos : Nat

/-- Repeats the `n` bytes that begin `distance` bytes before the end; the copy may reach into
itself. -/
def copyBack (distance : Nat) : Nat → ByteArray → ByteArray
  | 0, out => out
  | n + 1, out => copyBack distance n (out.push (Bytes.byteAt out (out.size - distance)))

def copyFrom (data : ByteArray) (start : Nat) : Nat → ByteArray → ByteArray
  | 0, out => out
  | n + 1, out => copyFrom data (start + 1) n (out.push (Bytes.byteAt data start))

/-- The number that a symbol of a table and its extra bits stand for. -/
def extended? (table : Array (Nat × Nat)) (data : ByteArray) (symbol pos : Nat) :
    Option (Nat × Nat) := do
  let (least, extra) ← table[symbol]?
  some (least + (← bits? data extra pos), pos + extra)

/-- A match: its length, its distance and the position behind it. -/
@[irreducible]
def match? (data : ByteArray) (distances : Code) (symbol pos : Nat) : Option (Nat × Nat × Nat) := do
  let (length, pos) ← extended? lengthTable data (symbol - 257) pos
  let (symbol, pos) ← distances.decode data pos
  let (distance, pos) ← extended? distanceTable data symbol pos
  some (length, distance, pos)

/-- The symbols of a block up to its end. Each takes a bit at least, so the bits left are fuel
enough. -/
def symbols (data : ByteArray) (limit : Nat) (literals distances : Code) :
    Nat → Nat → ByteArray → Except Fault Progress
  | 0, _, _ => .error .corrupt
  | fuel + 1, pos, out =>
    match literals.decode data pos with
    | none => .error .corrupt
    | some (symbol, pos) =>
      if symbol < 256 then
        if out.size < limit then
          symbols data limit literals distances fuel pos (out.push (UInt8.ofNat symbol))
        else .error .full
      else if symbol = 256 then .ok ⟨out, pos⟩
      else
        match match? data distances symbol pos with
        | none => .error .corrupt
        | some (length, distance, pos) =>
          if out.size < distance then .error .corrupt
          else if out.size + length ≤ limit then
            symbols data limit literals distances fuel pos (copyBack distance length out)
          else .error .full

/-- A block of plain bytes: its length, the complement of it and the bytes, from the next byte
on. -/
def storedBlock (data : ByteArray) (limit pos : Nat) (out : ByteArray) : Except Fault Progress :=
  let start := (pos + 7) / 8
  match bits? data 16 (8 * start), bits? data 16 (8 * start + 16) with
  | some length, some check =>
    if length + check ≠ 0xffff then .error .corrupt
    else
      let left := data.size - (start + 4)
      if limit < out.size + min length left then .error .full
      else if left < length then .error .corrupt
      else .ok ⟨copyFrom data (start + 4) length out, 8 * (start + 4 + length)⟩
  | _, _ => .error .corrupt

/-- `n` numbers of three bits. -/
def triples? (data : ByteArray) : Nat → Nat → Option (List Nat)
  | 0, _ => some []
  | n + 1, pos => do some ((← bits? data 3 pos) :: (← triples? data n (pos + 3)))

/-- Code lengths up to the wanted number of them, kept last first; a symbol from 16 on repeats the
last length or zero. -/
def codeLengths (data : ByteArray) (code : Code) (wanted : Nat) :
    Nat → List Nat → Nat → Option (List Nat × Nat)
  | 0, _, _ => none
  | fuel + 1, done, pos =>
    if wanted = done.length then some (done.reverse, pos)
    else if wanted < done.length then none
    else do
      let (symbol, pos) ← code.decode data pos
      if symbol < 16 then codeLengths data code wanted fuel (symbol :: done) pos
      else if symbol = 16 then do
        let last ← done.head?
        let n ← bits? data 2 pos
        codeLengths data code wanted fuel (List.replicate (3 + n) last ++ done) (pos + 2)
      else if symbol = 17 then do
        let n ← bits? data 3 pos
        codeLengths data code wanted fuel (List.replicate (3 + n) 0 ++ done) (pos + 3)
      else do
        let n ← bits? data 7 pos
        codeLengths data code wanted fuel (List.replicate (11 + n) 0 ++ done) (pos + 7)

/-- The two codes of a block that brings its own, and the position behind them. -/
def codes? (data : ByteArray) (pos : Nat) : Option (Code × Code × Nat) := do
  let literals := 257 + (← bits? data 5 pos)
  let distances := 1 + (← bits? data 5 (pos + 5))
  let given := 4 + (← bits? data 4 (pos + 10))
  if 286 < literals ∨ 30 < distances then none
  let triples ← triples? data given (pos + 14)
  let lengthOf (i : Nat) := ((lengthOrder.zip triples).find? (·.1 == i)).elim 0 (·.2)
  let code := Code.ofLengths ((List.range 19).map lengthOf)
  if !code.isComplete then none
  let wanted := literals + distances
  let (lengths, pos) ← codeLengths data code wanted (wanted + 1) [] (pos + 14 + 3 * given)
  let literalCode := Code.ofLengths (lengths.take literals)
  let distanceCode := Code.ofLengths (lengths.drop literals)
  if literalCode.isUsable && distanceCode.isUsable then some (literalCode, distanceCode, pos)
  else none

/-- The body of a block of the given type. -/
def block (data : ByteArray) (limit type pos : Nat) (out : ByteArray) : Except Fault Progress :=
  match type with
  | 0 => storedBlock data limit pos out
  | 1 => symbols data limit fixedLiterals fixedDistances (8 * data.size) pos out
  | 2 =>
    match codes? data pos with
    | some (literals, distances, pos) =>
      symbols data limit literals distances (8 * data.size) pos out
    | none => .error .corrupt
  | _ => .error .corrupt

/-- Blocks up to the one marked as the last. -/
def blocks (data : ByteArray) (limit : Nat) : Nat → Nat → ByteArray → Except Fault Progress
  | 0, _, _ => .error .corrupt
  | fuel + 1, pos, out =>
    match bits? data 1 pos, bits? data 2 (pos + 1) with
    | some last, some type =>
      match block data limit type (pos + 3) out with
      | .ok p => if last = 1 then .ok p else blocks data limit fuel p.pos p.out
      | .error fault => .error fault
    | _, _ => .error .corrupt

/-- The bytes that the bits from `pos` on stand for, at most `limit` of them. -/
def inflate (data : ByteArray) (limit pos : Nat) : Except Fault Progress :=
  blocks data limit (8 * data.size) pos ByteArray.empty

end Telemetry.Deflate
