import Telemetry.Rsa.Der
import Telemetry.Rsa.Pem

/-!
RSA keys and the two operations on integers below the modulus. A private key is accepted if its
primes multiply to the modulus and its exponents are inverse to each other modulo each prime less
one.
-/

namespace Telemetry.Rsa

structure PublicKey where
  modulus : Nat
  exponent : Nat
deriving DecidableEq

structure PrivateKey where
  publicKey : PublicKey
  exponent : Nat
deriving DecidableEq

/-- `b ^ e` modulo `n`, by squaring. -/
def powMod (n b e : Nat) : Nat :=
  if _h : e = 0 then 1 % n
  else
    let half := powMod n (b * b % n) (e / 2)
    if e % 2 = 1 then b * half % n else half
termination_by e
decreasing_by omega

def bitLength (n : Nat) : Nat := if n = 0 then 0 else n.log2 + 1

namespace PublicKey

/-- The bytes that the modulus takes. -/
def size (k : PublicKey) : Nat := (bitLength k.modulus + 7) / 8

def isUsable (k : PublicKey) : Bool :=
  bitLength k.modulus ≤ 4096 && k.modulus % 2 == 1 && k.exponent % 2 == 1 &&
    2 ≤ k.exponent && k.exponent < k.modulus && k.exponent < 2 ^ 33

def apply (k : PublicKey) (m : Nat) : Nat := powMod k.modulus m k.exponent

def ofNumbers? (numbers : List Der.Element) : Option PublicKey := do
  match ← numbers.mapM Der.Element.natural? with
  | [n, e] =>
    let key : PublicKey := ⟨n, e⟩
    if key.isUsable then some key else none
  | _ => none

end PublicKey

namespace PrivateKey

def size (k : PrivateKey) : Nat := k.publicKey.size

def apply (k : PrivateKey) (c : Nat) : Nat := powMod k.publicKey.modulus c k.exponent

/-- The key of a modulus, its two exponents and its two primes. -/
def make? (n e d p q : Nat) : Option PrivateKey :=
  let key : PublicKey := ⟨n, e⟩
  if key.isUsable && p * q == n && e * d % (p - 1) == 1 && e * d % (q - 1) == 1 then
    some ⟨key, d⟩
  else none

/-- Version zero, then modulus, public and private exponent, two primes, and three numbers that
only speed things up. -/
def ofNumbers? (numbers : List Der.Element) : Option PrivateKey := do
  match ← numbers.mapM Der.Element.natural? with
  | [0, n, e, d, p, q, _, _, _] => make? n e d p q
  | _ => none

end PrivateKey

/-- The algorithm that wrapped keys name: rsaEncryption, with null for parameters. -/
def algorithm : Der.Element :=
  ⟨0x30, [0x06, 0x09, 0x2a, 0x86, 0x48, 0x86, 0xf7, 0x0d, 0x01, 0x01, 0x01, 0x05, 0x00]⟩

/-- A key of any algorithm with the algorithm's name before it. -/
def wrappedPublic? (der : List UInt8) : Option PublicKey := do
  match ← Der.sequence? der with
  | [a, ⟨0x03, 0 :: bits⟩] => if a = algorithm then PublicKey.ofNumbers? (← Der.sequence? bits) else none
  | _ => none

def wrappedPrivate? (der : List UInt8) : Option PrivateKey := do
  match ← Der.sequence? der with
  | [version, a, ⟨0x04, octets⟩] =>
    if version.natural? = some 0 ∧ a = algorithm then PrivateKey.ofNumbers? (← Der.sequence? octets)
    else none
  | _ => none

def PublicKey.parse? (pem : String) : Option PublicKey :=
  match Pem.decode? "PUBLIC KEY" pem with
  | some der => wrappedPublic? der
  | none => do PublicKey.ofNumbers? (← Der.sequence? (← Pem.decode? "RSA PUBLIC KEY" pem))

def PrivateKey.parse? (pem : String) : Option PrivateKey :=
  match Pem.decode? "PRIVATE KEY" pem with
  | some der => wrappedPrivate? der
  | none => do PrivateKey.ofNumbers? (← Der.sequence? (← Pem.decode? "RSA PRIVATE KEY" pem))

end Telemetry.Rsa
