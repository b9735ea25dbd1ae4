import SigScript.Digest.Block
import SigScript.Digest.Words

/-!
# SHA-256

The hash function SHA-256.  A block of 64 bytes is expanded into 64 words, one for each round; the
padding ends with the length of the message in bits.
-/

namespace SigScript.Sha256

open Digest

/-- The eight working words, which also form the chaining value. -/
structure Registers where
  a : UInt32
  b : UInt32
  c : UInt32
  d : UInt32
  e : UInt32
  f : UInt32
  g : UInt32
  h : UInt32
  deriving DecidableEq, Repr

/-- The initial chaining value. -/
def initialChain : Registers :=
  ⟨0x6a09e667, 0xbb67ae85, 0x3c6ef372, 0xa54ff53a, 0x510e527f, 0x9b05688c, 0x1f83d9ab, 0x5be0cd19⟩

/-- The constants of the 64 rounds. -/
def roundConstants : List UInt32 := [
  0x428a2f98, 0x71374491, 0xb5c0fbcf, 0xe9b5dba5, 0x3956c25b, 0x59f111f1, 0x923f82a4, 0xab1c5ed5,
  0xd807aa98, 0x12835b01, 0x243185be, 0x550c7dc3, 0x72be5d74, 0x80deb1fe, 0x9bdc06a7, 0xc19bf174,
  0xe49b69c1, 0xefbe4786, 0x0fc19dc6, 0x240ca1cc, 0x2de92c6f, 0x4a7484aa, 0x5cb0a9dc, 0x76f988da,
  0x983e5152, 0xa831c66d, 0xb00327c8, 0xbf597fc7, 0xc6e00bf3, 0xd5a79147, 0x06ca6351, 0x14292967,
  0x27b70a85, 0x2e1b2138, 0x4d2c6dfc, 0x53380d13, 0x650a7354, 0x766a0abb, 0x81c2c92e, 0x92722c85,
  0xa2bfe8a1, 0xa81a664b, 0xc24b8b70, 0xc76c51a3, 0xd192e819, 0xd6990624, 0xf40e3585, 0x106aa070,
  0x19a4c116, 0x1e376c08, 0x2748774c, 0x34b0bcb5, 0x391c0cb3, 0x4ed8aa4a, 0x5b9cca4f, 0x682e6ff3,
  0x748f82ee, 0x78a5636f, 0x84c87814, 0x8cc70208, 0x90befffa, 0xa4506ceb, 0xbef9a3f7, 0xc67178f2]

/-- The words of the message schedule from the sixteen latest ones on, `n` of them. -/
def schedule : (latest : List UInt32) → (n : Nat) → List UInt32
  | _, 0 => []
  | [], _ => []
  | w :: rest, n + 1 =>
    let w₁ := rest.getD 0 0
    let w₁₄ := rest.getD 13 0
    let s₀ := rotateRight32 w₁ 7 ^^^ rotateRight32 w₁ 18 ^^^ w₁ >>> 3
    let s₁ := rotateRight32 w₁₄ 17 ^^^ rotateRight32 w₁₄ 19 ^^^ w₁₄ >>> 10
    w :: schedule (rest ++ [w + s₀ + rest.getD 8 0 + s₁]) n

/-- One round, with the sum of its schedule word and its constant. -/
def round (r : Registers) (word : UInt32) : Registers :=
  let s₁ := rotateRight32 r.e 6 ^^^ rotateRight32 r.e 11 ^^^ rotateRight32 r.e 25
  let choice := (r.e &&& r.f) ^^^ (~~~r.e &&& r.g)
  let t₁ := r.h + s₁ + choice + word
  let s₀ := rotateRight32 r.a 2 ^^^ rotateRight32 r.a 13 ^^^ rotateRight32 r.a 22
  let majority := (r.a &&& r.b) ^^^ (r.a &&& r.c) ^^^ (r.b &&& r.c)
  ⟨t₁ + (s₀ + majority), r.a, r.b, r.c, r.d + t₁, r.e, r.f, r.g⟩

/-- Adds two chaining values word by word. -/
def addRegisters (r s : Registers) : Registers :=
  ⟨r.a + s.a, r.b + s.b, r.c + s.c, r.d + s.d, r.e + s.e, r.f + s.f, r.g + s.g, r.h + s.h⟩

/-- Compresses a block of 64 bytes into the chaining value. -/
def compress (chain : Registers) (block : Bytes) : Registers :=
  let words := List.zipWith (· + ·) (schedule (wordsBE32 block) 64) roundConstants
  addRegisters chain (words.foldl round chain)

/-- A hash computation under way. -/
structure State where
  /-- The chaining value after all whole blocks. -/
  chain : Registers
  /-- Bytes that do not fill a block yet. -/
  pending : Bytes
  /-- The number of bytes absorbed. -/
  length : Nat
  deriving DecidableEq, Repr

/-- The state before any input. -/
def State.initial : State := ⟨initialChain, [], 0⟩

/-- Absorbs bytes. -/
def State.absorb (s : State) (data : Bytes) : State :=
  let (chain, pending) := Digest.absorb 63 compress s.chain (s.pending ++ data)
  ⟨chain, pending, s.length + data.length⟩

/-- The last bytes: one 1 bit, zeros up to the last eight bytes of a block, and the length of the
message in bits. -/
def padding (length : Nat) : Bytes :=
  0x80 :: List.replicate ((119 - length % 64) % 64) 0 ++ Bytes.ofNatPadded 8 (8 * length)

/-- The digest of all input. -/
def State.finish (s : State) : Bytes :=
  let r := (s.absorb (padding s.length)).chain
  [r.a, r.b, r.c, r.d, r.e, r.f, r.g, r.h].flatMap bytesBE32

end SigScript.Sha256
