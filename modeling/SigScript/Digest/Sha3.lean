import SigScript.Digest.Block
import SigScript.Digest.Words

/-!
# SHA3-256

The hash function SHA3-256: the permutation Keccak-f of 25 words of 64 bits in a sponge that takes
blocks of 136 bytes.  The word in column `x` and row `y` has position `x + 5 * y`.
-/

namespace SigScript.Sha3

open Digest

/-- The 25 words of the permutation. -/
abbrev Lanes := Vector UInt64 25

/-- The constants of the 24 rounds. -/
def roundConstants : List UInt64 := [
  0x0000000000000001, 0x0000000000008082, 0x800000000000808a, 0x8000000080008000,
  0x000000000000808b, 0x0000000080000001, 0x8000000080008081, 0x8000000000008009,
  0x000000000000008a, 0x0000000000000088, 0x0000000080008009, 0x000000008000000a,
  0x000000008000808b, 0x800000000000008b, 0x8000000000008089, 0x8000000000008003,
  0x8000000000008002, 0x8000000000000080, 0x000000000000800a, 0x800000008000000a,
  0x8000000080008081, 0x8000000000008080, 0x0000000080000001, 0x8000000080008008]

/-- The rotation amount of each position. -/
def rotationAmounts : Vector UInt64 25 := #v[
  0, 1, 62, 28, 27,
  36, 44, 6, 55, 20,
  3, 10, 43, 25, 39,
  41, 45, 15, 21, 8,
  18, 2, 61, 56, 14]

/-- The word in a column and a row, both counted modulo 5. -/
def lane (s : Lanes) (x y : Nat) : UInt64 :=
  s.get ⟨x % 5 + 5 * (y % 5), by omega⟩

/-- The parity of a column. -/
def columnParity (s : Lanes) (x : Nat) : UInt64 :=
  lane s x 0 ^^^ lane s x 1 ^^^ lane s x 2 ^^^ lane s x 3 ^^^ lane s x 4

/-- Adds to every word the parities of the two columns beside its own. -/
def theta (s : Lanes) : Lanes :=
  let parities : Vector UInt64 5 := Vector.ofFn fun x => columnParity s x
  let parity (x : Nat) : UInt64 := parities.get ⟨x % 5, by omega⟩
  Vector.ofFn fun i => s.get i ^^^ parity (i + 4) ^^^ rotateLeft64 (parity (i + 1)) 1

/-- Rotates every word by its own amount. -/
def rho (s : Lanes) : Lanes :=
  Vector.ofFn fun i => rotateLeft64 (s.get i) (rotationAmounts.get i)

/-- Moves the words: column `x` and row `y` receive the word of column `x + 3 y` and row `x`. -/
def pi (s : Lanes) : Lanes :=
  Vector.ofFn fun i => lane s (i % 5 + 3 * (i / 5)) i

/-- Combines every word with the two after it in its row. -/
def chi (s : Lanes) : Lanes :=
  Vector.ofFn fun i => s.get i ^^^ (~~~lane s (i + 1) (i / 5) &&& lane s (i + 2) (i / 5))

/-- Adds a constant to the first word. -/
def iota (constant : UInt64) (s : Lanes) : Lanes :=
  Vector.ofFn fun i => if i = 0 then s.get i ^^^ constant else s.get i

/-- The permutation: 24 rounds. -/
def keccak (s : Lanes) : Lanes :=
  roundConstants.foldl (fun s constant => iota constant (chi (pi (rho (theta s))))) s

/-- Adds a block to the front of the sponge and permutes. -/
def compress (s : Lanes) (block : Bytes) : Lanes :=
  let words := (wordsLE64 block).toArray
  keccak (Vector.ofFn fun i => s.get i ^^^ words.getD i 0)

/-- A hash computation under way. -/
structure State where
  /-- The sponge after all whole blocks. -/
  lanes : Lanes
  /-- Bytes that do not fill a block yet. -/
  pending : Bytes
  deriving DecidableEq, Repr

/-- The state before any input. -/
def State.initial : State := ⟨Vector.ofFn fun _ => 0, []⟩

/-- Absorbs bytes. -/
def State.absorb (s : State) (data : Bytes) : State :=
  let (lanes, pending) := Digest.absorb 135 compress s.lanes (s.pending ++ data)
  ⟨lanes, pending⟩

/-- The last bytes, when `n` bytes wait for their block: the bits `011`, zeros and a 1 bit. -/
def padding (n : Nat) : Bytes :=
  if n = 135 then [0x86] else 0x06 :: List.replicate (134 - n) 0 ++ [0x80]

/-- The digest of all input. -/
def State.finish (s : State) : Bytes :=
  ((s.absorb (padding s.pending.length)).lanes.toList.take 4).flatMap bytesLE64

end SigScript.Sha3
