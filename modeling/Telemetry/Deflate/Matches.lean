import Telemetry.Deflate.Token

/-!
Finding repetitions. Each position is linked to the last one before it whose three bytes have the
same hash, and a match that has been found waits for one byte, in case that a longer one begins
there.
-/

namespace Telemetry.Deflate

/-- How far back a match may begin. -/
def window : Nat := 32768

def longestMatch : Nat := 258

/-- A match of at least this length is taken at once. -/
def longEnough : Nat := 128

/-- How long a match is and how far back it begins; one of distance zero is none. -/
structure Match where
  length : Nat
  distance : Nat
deriving DecidableEq

/-- For each position of the window the one before it with the same hash, and for each hash the
last position. Zero ends a chain, so that no match begins at position zero. -/
structure Chains where
  links : Array Nat
  heads : Array Nat

/-- How many bytes at `i` and `j` agree from the `k`th on, at most `n` more. -/
def agreement (data : ByteArray) (i j : Nat) : Nat → Nat → Nat
  | 0, k => k
  | n + 1, k =>
    if Bytes.byteAt data (i + k) == Bytes.byteAt data (j + k) then agreement data i j n (k + 1)
    else k

namespace Chains

def empty : Chains := ⟨Array.replicate window 0, Array.replicate 32768 0⟩

def hash (data : ByteArray) (i : Nat) : Nat :=
  let byte (k : Nat) := (Bytes.byteAt data (i + k)).toNat
  ((byte 0 <<< 10) ^^^ (byte 1 <<< 5) ^^^ byte 2) % 32768

def insert (c : Chains) (data : ByteArray) (i : Nat) : Chains :=
  if i + 2 < data.size then
    let h := hash data i
    ⟨c.links.setIfInBounds (i % window) (c.heads.getD h 0), c.heads.setIfInBounds h i⟩
  else c

/-- Inserts the `n` positions from `i` on. -/
def insertAll (data : ByteArray) : Nat → Nat → Chains → Chains
  | 0, _, c => c
  | n + 1, i, c => insertAll data n (i + 1) (c.insert data i)

/-- Whether the last byte of a match and the one behind it are the same at both positions. -/
def endsAlike (data : ByteArray) (i j length : Nat) : Bool :=
  Bytes.byteAt data (i + length - 1) == Bytes.byteAt data (j + length - 1) &&
    Bytes.byteAt data (i + length) == Bytes.byteAt data (j + length)

/-- Follows a chain from `candidate` on for matches longer than `best`, of at most `room` bytes and
beginning at most `reach` back. Candidates are tried in rounds of three, and one that ends alike
closes its round; `effort` is what is left of them. -/
def search (c : Chains) (data : ByteArray) (pos room reach effort candidate : Nat) (best : Match) :
    Match :=
  if _h : effort = 0 ∨ candidate = 0 ∨ reach < pos - candidate then best
  else
    let next := c.links.getD (candidate % window) 0
    if endsAlike data candidate pos best.length then
      let n := agreement data candidate pos room 0
      let best := if best.length < n then ⟨n, pos - candidate⟩ else best
      if n = room then best
      else search c data pos room reach ((effort - 1) / 3 * 3) next best
    else search c data pos room reach (effort - 1) next best
termination_by effort
decreasing_by all_goals omega

/-- The longest match at `pos` that the search finds if it is longer than `least`. One of three
bytes from far away, or from a multiple of the window's size, is not worth it. -/
def longest (c : Chains) (data : ByteArray) (pos room reach least : Nat) : Match :=
  let effort := if 32 ≤ least then 192 else 768
  let candidate := c.links.getD (pos % window) 0
  let best : Match :=
    if room ≤ least then ⟨least, 0⟩ else c.search data pos room reach effort candidate ⟨least, 0⟩
  if (best.length = 3 ∧ 8192 ≤ best.distance) ∨ pos % window = best.distance then ⟨0, 0⟩ else best

end Chains

/-- Where the search for repetitions stands. The window reaches `reach` bytes back; `waiting` is a
match that begins at the last byte, which is in no token yet. -/
structure Search where
  pos : Nat
  reach : Nat
  chains : Chains
  waiting : Option Match
  current : Block
  closed : Array Block

namespace Search

def start (data : ByteArray) : Search :=
  ⟨0, 0, Chains.empty.insert data 0, none, .empty 0, #[]⟩

def push (s : Search) (t : Token) : Search := { s with current := s.current.push t }

def pushMatch (s : Search) (m : Match) : Search := s.push (.repetition m.length m.distance)

/-- The literal at a position. -/
def pushByte (s : Search) (data : ByteArray) (i : Nat) : Search :=
  s.push (.literal (Bytes.byteAt data i))

/-- Goes on by `n` bytes. -/
def move (s : Search) (data : ByteArray) (n : Nat) : Search :=
  { s with
    pos := s.pos + n
    reach := min window (s.reach + n)
    chains := Chains.insertAll data n (s.pos + 1) s.chains }

/-- Takes a match at the position: at once if it is long enough, and else it waits. -/
def offer (s : Search) (data : ByteArray) (m : Match) : Search :=
  if longEnough ≤ m.length then ({ s with waiting := none }.pushMatch m).move data m.length
  else { s with waiting := some m }.move data 1

def close (s : Search) : Search :=
  let kept := decide (s.pos - s.current.start ≤ s.reach)
  { s with
    closed := s.closed.push { s.current with kept }
    current := .empty (s.current.start + s.current.size) }

/-- One position: the match that waits is taken unless a longer one begins here. -/
def step (data : ByteArray) (s : Search) : Search :=
  let room := min longestMatch (data.size - s.pos)
  let s := { s with reach := min s.reach (window - room) }
  let least := s.waiting.elim 2 Match.length
  let found := s.chains.longest data s.pos room s.reach least
  let s :=
    match s.waiting with
    | some m =>
      if m.length < found.length then (s.pushByte data (s.pos - 1)).offer data found
      else ({ s with waiting := none }.pushMatch m).move data (m.length - 1)
    | none =>
      if found.distance = 0 then (s.pushByte data s.pos).move data 1 else s.offer data found
  if s.current.isFull then s.close else s

/-- Steps to the end. Each goes on by a byte at least, so the size of the data is fuel enough. -/
def run (data : ByteArray) : Nat → Search → Search
  | 0, s => s
  | fuel + 1, s => if data.size ≤ s.pos then s else run data fuel (s.step data)

end Search

/-- The blocks of a text; there is one at least. -/
def blocksOf (data : ByteArray) : Array Block :=
  ((Search.start data).run data data.size).close.closed

end Telemetry.Deflate
