import Telemetry.Rsa.Key
import Telemetry.Frame.Error

/-!
Bodies sealed block by block. A block is padded to the size of the modulus with a two, random bytes
that are not zero, and a zero; opening the sealed blocks in order gives the body back.
-/

namespace Telemetry.Rsa

/-- The random bytes of a sealing, by block and place. None of them is zero. -/
abbrev Noise := Nat → Nat → UInt8

def overhead : Nat := 11

def padded (size : Nat) (noise : Nat → UInt8) (message : List UInt8) : List UInt8 :=
  0 :: 2 :: (List.range (size - 3 - message.length)).map noise ++ 0 :: message

/-- The message behind the first zero, if at least eight bytes of padding precede that. -/
def unpad? : List UInt8 → Option (List UInt8)
  | 0 :: 2 :: rest =>
    match rest.dropWhile (· != 0) with
    | 0 :: message => if 8 ≤ (rest.takeWhile (· != 0)).length then some message else none
    | _ => none
  | _ => none

/-- Consecutive parts of `n` elements, the last one shorter if need be. -/
def chunks (n : Nat) (bs : List α) : List (List α) :=
  if _h : n = 0 ∨ bs = [] then [] else bs.take n :: chunks n (bs.drop n)
termination_by bs.length
decreasing_by
  cases bs with
  | nil => simp at _h
  | cons b bs => simp at _h ⊢; omega

namespace PublicKey

def sealBlock (k : PublicKey) (noise : Nat → UInt8) (message : List UInt8) : List UInt8 :=
  Bytes.bigEndian k.size (k.apply (Bytes.ofBigEndian (padded k.size noise message)))

def sealBlocks (k : PublicKey) (noise : Noise) : Nat → List (List UInt8) → List UInt8
  | _, [] => []
  | i, m :: ms => k.sealBlock (noise i) m ++ sealBlocks k noise (i + 1) ms

def encrypt (k : PublicKey) (noise : Noise) (plain : List UInt8) :
    Except Frame.Error (List UInt8) :=
  if k.size ≤ overhead then .error (.keyTooSmall k.size)
  else .ok (k.sealBlocks noise 0 (chunks (k.size - overhead) plain))

end PublicKey

namespace PrivateKey

/-- Opens one block. The public operation has to lead back to the block, which it does for every
number below the modulus if the primes are prime. -/
def openBlock? (k : PrivateKey) (block : List UInt8) : Option (List UInt8) :=
  let c := Bytes.ofBigEndian block
  let m := k.apply c
  if c < k.publicKey.modulus ∧ k.publicKey.apply m = c ∧ overhead ≤ k.size then
    unpad? (Bytes.bigEndian k.size m)
  else none

def decrypt (k : PrivateKey) (sealed : List UInt8) : Except Frame.Error (List UInt8) :=
  if sealed.length % k.size ≠ 0 then .error (.ciphertextLength sealed.length k.size)
  else match (chunks k.size sealed).mapM k.openBlock? with
    | some parts => .ok parts.flatten
    | none => .error .decrypt

end PrivateKey
end Telemetry.Rsa
