import Telemetry.Deflate.Code

/-!
Code lengths for symbols that occur a given number of times. Without a limit they make the total of
all occurrences as short as any prefix code can; a limit that they exceed is met by lengthening the
codewords next to it.
-/

namespace Telemetry.Deflate

inductive Tree
  | leaf
  | fork (left right : Tree)

/-- How deep the leaves of a tree lie below `depth`. -/
def Tree.depths (depth : Nat) : Tree → List Nat
  | leaf => [depth]
  | fork left right => left.depths (depth + 1) ++ right.depths (depth + 1)

/-- The lightest of the trees in two ascending lists, and the lists without it; of equals, it is the
leaf. -/
def lightest? (leaves : List Nat) (forks : List (Nat × Tree)) :
    Option ((Nat × Tree) × List Nat × List (Nat × Tree)) :=
  match leaves, forks with
  | [], [] => none
  | n :: leaves, [] => some ((n, .leaf), leaves, [])
  | [], t :: forks => some (t, [], forks)
  | n :: leaves, t :: forks =>
    if t.1 < n then some (t, n :: leaves, forks) else some ((n, .leaf), leaves, t :: forks)

/-- Joins the two lightest trees until one is left. -/
def joined : Nat → List Nat → List (Nat × Tree) → Option Tree
  | 0, _, _ => none
  | fuel + 1, leaves, forks => do
    let (a, leaves, forks) ← lightest? leaves forks
    match lightest? leaves forks with
    | none => some a.2
    | some (b, leaves, forks) => joined fuel leaves (forks ++ [(a.1 + b.1, .fork a.2 b.2)])

/-- Lengthens the longest of the codewords that are not in the first place. -/
def lengthen : List Nat → List Nat
  | a :: 0 :: rest => a :: lengthen (0 :: rest)
  | a :: (b + 1) :: rest => (a + 2) :: b :: rest
  | counts => counts

/-- Takes one codeword of the longest out, and lengthens another so that there are as many. -/
def relieve : List Nat → List Nat
  | [] => []
  | a :: rest => lengthen ((a - 1) :: rest)

/-- How deep the leaves of the joined tree lie; a tree that is one leaf still takes a bit. -/
def depthsOf (weights : List Nat) : List Nat :=
  match joined weights.length weights [] with
  | none => []
  | some .leaf => [1]
  | some tree => tree.depths 0

/-- How many codewords there are of `limit` bits, of one bit fewer and so on, down to one bit. -/
def countsFor (limit : Nat) (depths : List Nat) : List Nat :=
  let depths := depths.map (min limit)
  let counts := (List.range limit).map fun i => depths.count (limit - i)
  let coverage := counts.foldr (fun k n => 2 * n + k) 0
  (List.range (coverage - 2 ^ limit)).foldl (fun counts _ => relieve counts) counts

/-- How often each symbol occurs that does, the least frequent first. -/
def present (occurrences : List Nat) : List (Nat × Nat) :=
  (occurrences.zipIdx.filter (·.1 != 0)).mergeSort fun a b => a.1 ≤ b.1

/-- A codeword's length for each symbol, zero for those that do not occur. The more often a symbol
occurs the shorter its codeword; of equals, the later symbol's. -/
def lengthsFor (limit : Nat) (occurrences : List Nat) : List Nat :=
  let present := present occurrences
  let depths := depthsOf (present.map (·.1))
  let ascending := (countsFor limit depths).zipIdx.flatMap fun (n, i) => List.replicate n (limit - i)
  let assigned := (present.map (·.2)).zip ascending
  (List.range occurrences.length).map fun symbol => (assigned.lookup symbol).getD 0

end Telemetry.Deflate
