/-!
What can go wrong with the frame around a body: its compression, its encryption, its signature and
the keys for them.
-/

namespace Telemetry.Frame

/-- The two halves of a key pair. -/
inductive Half
  | publicHalf
  | privateHalf
deriving DecidableEq

def Half.name : Half → String
  | publicHalf => "public key"
  | privateHalf => "private key"

inductive Error
  | decompress
  | tooLarge (limit : Nat)
  | decrypt
  | ciphertextLength (length block : Nat)
  | key (half : Half)
  | keyTooSmall (size : Nat)
  | keyFile (path : String)
  | signatureMismatch
deriving DecidableEq

def Error.message : Error → String
  | decompress => "gzip decompression failed: corrupt member"
  | tooLarge limit => "decompressed body exceeds " ++ toString limit ++ " bytes"
  | decrypt => "decryption failed: bad block"
  | ciphertextLength length block =>
    "ciphertext length " ++ toString length ++ " is not a multiple of the " ++ toString block ++
      "-byte key size"
  | key half => "invalid key: " ++ half.name ++ ": not a usable RSA key"
  | keyTooSmall size =>
    "invalid key: " ++ toString size ++ "-byte modulus is too small for PKCS#1 v1.5"
  | keyFile path => "cannot read key file " ++ path ++ ": not a readable text file"
  | signatureMismatch => "HashSHA256 does not match the body"

end Telemetry.Frame
