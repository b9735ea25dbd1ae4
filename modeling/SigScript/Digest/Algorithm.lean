import SigScript.Digest.Lsh
import SigScript.Digest.Sha256
import SigScript.Digest.Sha3

/-!
# Choice of a hash function

The hash functions that scripts and signatures can use, with one streaming interface: a hasher is
started, takes byte strings, and gives a digest.
-/

namespace SigScript

/-- A hash function.  LSH-256 comes with every digest length; lengths it does not offer are refused
when a computation starts. -/
inductive HashAlgorithm where
  | lsh256 (outputBits : Nat)
  | sha256
  | sha3
  deriving DecidableEq, Repr

/-- A hash computation under way.  Only whole bytes are absorbed. -/
inductive Hasher where
  | lsh256 (state : Lsh.State)
  | sha256 (state : Sha256.State)
  | sha3 (state : Sha3.State)
  deriving DecidableEq, Repr

/-- Absorbs bytes. -/
def Hasher.absorb (h : Hasher) (data : Bytes) : Hasher :=
  match h with
  | .lsh256 s => .lsh256 (s.absorb data)
  | .sha256 s => .sha256 (s.absorb data)
  | .sha3 s => .sha3 (s.absorb data)

/-- Absorbs byte strings one after the other. -/
def Hasher.absorbAll (h : Hasher) (pieces : List Bytes) : Hasher := pieces.foldl Hasher.absorb h

/-- The digest of all input. -/
def Hasher.finish : Hasher → Bytes
  | .lsh256 s => s.finish
  | .sha256 s => s.finish
  | .sha3 s => s.finish

namespace HashAlgorithm

/-- LSH-256 with a digest of 256 bits. -/
instance : Inhabited HashAlgorithm := ⟨.lsh256 256⟩

/-- Starts a computation. -/
def hasher : HashAlgorithm → Except CryptoError Hasher
  | .lsh256 outputBits => (Lsh.State.new outputBits).map .lsh256
  | .sha256 => .ok (.sha256 .initial)
  | .sha3 => .ok (.sha3 .initial)

/-- The digest of a byte string. -/
def digest (hash : HashAlgorithm) (data : Bytes) : Except CryptoError Bytes :=
  hash.hasher.map fun h => (h.absorb data).finish

/-- The digest of byte strings absorbed one after the other. -/
def digestAll (hash : HashAlgorithm) (pieces : List Bytes) : Except CryptoError Bytes :=
  hash.hasher.map fun h => (h.absorbAll pieces).finish

/-- The length of the digest in bits. -/
def outputBits : HashAlgorithm → Nat
  | .lsh256 bits => bits
  | .sha256 | .sha3 => 256

/-- The name of the hash function, with the digest length where there is a choice. -/
def name : HashAlgorithm → String
  | .lsh256 bits => "LSH-256-" ++ Numeral.decimal bits
  | .sha256 => "SHA-256"
  | .sha3 => "SHA3-256"

end HashAlgorithm

end SigScript
