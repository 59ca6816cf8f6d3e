import Telemetry.Deflate.Code

/-!
A text as literals and repetitions. What the tokens of a text stand for is the text, whichever
repetitions are found in it.
-/

namespace Telemetry.Deflate

/-- A byte, or as many bytes as stand `distance` bytes before it. -/
inductive Token
  | literal (byte : UInt8)
  | repetition (length distance : Nat)
deriving DecidableEq, Inhabited

/-- The last row of a table whose least number does not exceed `n`, with its index. -/
def rowFor (table : Array (Nat × Nat)) (n : Nat) : Nat × Nat × Nat :=
  let i := table.foldl (fun i row => if row.1 ≤ n then i + 1 else i) 0 - 1
  let row := table.getD i (0, 0)
  (i, row.1, row.2)

namespace Token

/-- How many bytes it stands for. -/
def size : Token → Nat
  | literal _ => 1
  | repetition length _ => length

/-- How many bytes it takes while its block is being collected. -/
def room : Token → Nat
  | literal _ => 1
  | repetition _ _ => 3

/-- Its symbol in the code of literals and lengths. -/
def symbol : Token → Nat
  | literal byte => byte.toNat
  | repetition length _ => 257 + (rowFor lengthTable length).1

/-- Its symbol in the code of distances. -/
def distanceSymbol? : Token → Option Nat
  | literal _ => none
  | repetition _ distance => some (rowFor distanceTable distance).1

end Token

/-- Tokens that share a code, and the bytes they stand for. A block is `kept` if all its bytes are
still in the window when it is closed. -/
structure Block where
  start : Nat
  size : Nat
  room : Nat
  kept : Bool
  tokens : Array Token
deriving Inhabited

namespace Block

def empty (start : Nat) : Block := ⟨start, 0, 0, true, #[]⟩

def push (b : Block) (t : Token) : Block :=
  { b with size := b.size + t.size, room := b.room + t.room, tokens := b.tokens.push t }

/-- The space for a block: its tokens, and a byte of marks for every eight of them. -/
def capacity : Nat := 65536

def used (b : Block) : Nat := 1 + b.room + b.tokens.size / 8

/-- A block is closed when its space is nearly used up, or when it is long and its tokens take as
much of it as its bytes would. -/
def isFull (b : Block) : Bool :=
  decide (capacity - 8 < b.used) || (decide (31 * 1024 < b.size) && decide (b.size ≤ b.used * 115 / 128))

end Block

end Telemetry.Deflate
