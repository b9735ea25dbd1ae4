import SigScript.Digest.Block
import SigScript.Digest.Words
import SigScript.CryptoError

/-!
# LSH-256

The hash function LSH-256 with digests of 1 to 256 bits.  Each block of 128 bytes is expanded into
27 sub-messages of sixteen words; 26 of them are mixed into the chaining value, one a step, and the
last is added to it by exclusive or.  Input is a string of bits: only the last update may end inside
a byte, and one 1 bit and zeros fill the last block.
-/

namespace SigScript.Lsh

open Digest

/-- Sixteen words: a chaining value or a sub-message. -/
abbrev Words := Vector UInt32 16

/-! ### Constants -/

/-- Where the message expansion takes the older word of each position from. -/
def tau : Vector (Fin 16) 16 := #v[3, 2, 0, 1, 7, 4, 5, 6, 11, 10, 8, 9, 15, 12, 13, 14]

/-- The word permutation that ends a step. -/
def sigma : Vector (Fin 16) 16 := #v[6, 4, 5, 7, 12, 15, 14, 13, 2, 0, 1, 3, 8, 11, 10, 9]

/-- Rotation amounts of the right half of each column. -/
def gamma : Vector UInt32 8 := #v[0, 8, 16, 24, 24, 16, 8, 0]

/-- The initial value for 224-bit digests. -/
def iv224 : Words := #v[
  0x068608d3, 0x62d8f7a7, 0xd76652ab, 0x4c600a43, 0xbdc40aa8, 0x1eca0b68, 0xda1a89be, 0x3147d354,
  0x707eb4f9, 0xf65b3862, 0x6b0b2abe, 0x56b8ec0a, 0xcf237286, 0xee0d1727, 0x33636595, 0x8bb8d05f]

/-- The initial value for 256-bit digests. -/
def iv256 : Words := #v[
  0x46a10f1f, 0xfddce486, 0xb41443a8, 0x198e6b9d, 0x3304388d, 0xb0f5a3c7, 0xb36061c4, 0x7adbd553,
  0x105d5378, 0x2f74de54, 0x5c2f2d95, 0xf2553fbe, 0x8051357a, 0x138668c8, 0x47aa4484, 0xe01afb41]

/-- Eight constants a step, one for each column. -/
def stepConstants : Vector UInt32 208 := #v[
  0x917caf90, 0x6c1b10a2, 0x6f352943, 0xcf778243, 0x2ceb7472, 0x29e96ff2, 0x8a9ba428, 0x2eeb2642,
  0x0e2c4021, 0x872bb30e, 0xa45e6cb2, 0x46f9c612, 0x185fe69e, 0x1359621b, 0x263fccb2, 0x1a116870,
  0x3a6c612f, 0xb2dec195, 0x02cb1f56, 0x40bfd858, 0x784684b6, 0x6cbb7d2e, 0x660c7ed8, 0x2b79d88a,
  0xa6cd9069, 0x91a05747, 0xcdea7558, 0x00983098, 0xbecb3b2e, 0x2838ab9a, 0x728b573e, 0xa55262b5,
  0x745dfa0f, 0x31f79ed8, 0xb85fce25, 0x98c8c898, 0x8a0669ec, 0x60e445c2, 0xfde295b0, 0xf7b5185a,
  0xd2580983, 0x29967709, 0x182df3dd, 0x61916130, 0x90705676, 0x452a0822, 0xe07846ad, 0xaccd7351,
  0x2a618d55, 0xc00d8032, 0x4621d0f5, 0xf2f29191, 0x00c6cd06, 0x6f322a67, 0x58bef48d, 0x7a40c4fd,
  0x8beee27f, 0xcd8db2f2, 0x67f2c63b, 0xe5842383, 0xc793d306, 0xa15c91d6, 0x17b381e5, 0xbb05c277,
  0x7ad1620a, 0x5b40a5bf, 0x5ab901a2, 0x69a7a768, 0x5b66d9cd, 0xfdee6877, 0xcb3566fc, 0xc0c83a32,
  0x4c336c84, 0x9be6651a, 0x13baa3fc, 0x114f0fd1, 0xc240a728, 0xec56e074, 0x009c63c7, 0x89026cf2,
  0x7f9ff0d0, 0x824b7fb5, 0xce5ea00f, 0x605ee0e2, 0x02e7cfea, 0x43375560, 0x9d002ac7, 0x8b6f5f7b,
  0x1f90c14f, 0xcdcb3537, 0x2cfeafdd, 0xbf3fc342, 0xeab7b9ec, 0x7a8cb5a3, 0x9d2af264, 0xfacedb06,
  0xb052106e, 0x99006d04, 0x2bae8d09, 0xff030601, 0xa271a6d6, 0x0742591d, 0xc81d5701, 0xc9a9e200,
  0x02627f1e, 0x996d719d, 0xda3b9634, 0x02090800, 0x14187d78, 0x499b7624, 0xe57458c9, 0x738be2c9,
  0x64e19d20, 0x06df0f36, 0x15d1cb0e, 0x0b110802, 0x2c95f58c, 0xe5119a6d, 0x59cd22ae, 0xff6eac3c,
  0x467ebd84, 0xe5ee453c, 0xe79cd923, 0x1c190a0d, 0xc28b81b8, 0xf6ac0852, 0x26efd107, 0x6e1ae93b,
  0xc53c41ca, 0xd4338221, 0x8475fd0a, 0x35231729, 0x4e0d3a7a, 0xa2b45b48, 0x16c0d82d, 0x890424a9,
  0x017e0c8f, 0x07b5a3f5, 0xfa73078e, 0x583a405e, 0x5b47b4c8, 0x570fa3ea, 0xd7990543, 0x8d28ce32,
  0x7f8a9b90, 0xbd5998fc, 0x6d7a9688, 0x927a9eb6, 0xa2fc7d23, 0x66b38e41, 0x709e491a, 0xb5f700bf,
  0x0a262c0f, 0x16f295b9, 0xe8111ef5, 0x0d195548, 0x9f79a0c5, 0x1a41cfa7, 0x0ee7638a, 0xacf7c074,
  0x30523b19, 0x09884ecf, 0xf93014dd, 0x266e9d55, 0x191a6664, 0x5c1176c1, 0xf64aed98, 0xa4b83520,
  0x828d5449, 0x91d71dd8, 0x2944f2d6, 0x950bf27b, 0x3380ca7d, 0x6d88381d, 0x4138868e, 0x5ced55c4,
  0x0fe19dcb, 0x68f4f669, 0x6e37c8ff, 0xa0fe6e10, 0xb44b47b0, 0xf5c0558a, 0x79bf14cf, 0x4a431a20,
  0xf17f68da, 0x5deb5fd1, 0xa600c86d, 0x9f6c7eb0, 0xff92f864, 0xb615e07f, 0x38d3e448, 0x8d5d3a6a,
  0x70e843cb, 0x494b312e, 0xa6c93613, 0x0beb2f4f, 0x928b5d63, 0xcbf66035, 0x0cb82c80, 0xea97a4f7,
  0x592c0f3b, 0x947c5f77, 0x6fff49b9, 0xf71a7e5a, 0x1de8c0f5, 0xc2569600, 0xc4e4ac8c, 0x823c9ce1]

/-! ### Compression -/

/-- The sub-message after two given ones. -/
def nextSubmessage (older newer : Words) : Words :=
  Vector.ofFn fun j => newer.get j + older.get (tau.get j)

/-- The first `n` of the sub-messages that begin with two given ones. -/
def submessages (older newer : Words) : (n : Nat) → List Words
  | 0 => []
  | n + 1 => older :: submessages newer (nextSubmessage older newer) n

/-- Rotation amounts of a step: those of even steps and of odd steps. -/
def rotations (step : Nat) : UInt32 × UInt32 := if step % 2 = 0 then (29, 1) else (5, 17)

/-- Mixes the two words of a column. -/
def mixColumn (alpha beta gamma constant : UInt32) (left right : UInt32) : UInt32 × UInt32 :=
  let left := rotateLeft32 (left + right) alpha ^^^ constant
  let right := rotateLeft32 (left + right) beta
  (left + right, rotateLeft32 right gamma)

/-- The eight columns of a chaining value, mixed with the constants of a step. -/
def mixColumns (step : Nat) (chain : Words) : Vector (UInt32 × UInt32) 8 :=
  let (alpha, beta) := rotations step
  Vector.ofFn fun col =>
    mixColumn alpha beta (gamma.get col) (stepConstants.toArray.getD (8 * step + col) 0)
      (chain.get ⟨col, by omega⟩) (chain.get ⟨col + 8, by omega⟩)

/-- The columns as sixteen words: all left words, then all right words. -/
def joinColumns (columns : Vector (UInt32 × UInt32) 8) : Words :=
  Vector.ofFn fun j =>
    if h : j.val < 8 then (columns.get ⟨j, h⟩).1 else (columns.get ⟨j - 8, by omega⟩).2

/-- Exclusive or, word by word. -/
def addWords (u v : Words) : Words := Vector.ofFn fun j => u.get j ^^^ v.get j

/-- Moves the words of a chaining value by the permutation `sigma`. -/
def permute (chain : Words) : Words := Vector.ofFn fun j => chain.get (sigma.get j)

/-- One step: adds a sub-message, mixes the columns and permutes the words. -/
def mixStep (step : Nat) (message chain : Words) : Words :=
  permute (joinColumns (mixColumns step (addWords chain message)))

/-- Mixes sub-messages into a chaining value from a step on; the last one is only added. -/
def mix (step : Nat) : (messages : List Words) → (chain : Words) → Words
  | [], chain => chain
  | [message], chain => addWords chain message
  | message :: messages, chain => mix (step + 1) messages (mixStep step message chain)

/-- The sixteen words of a block from a word position on; words beyond its end are 0. -/
def blockWords (block : Bytes) (start : Nat) : Words :=
  let words := (wordsLE32 block).toArray
  Vector.ofFn fun j => words.getD (start + j) 0

/-- Compresses a block of 128 bytes into the chaining value. -/
def compress (chain : Words) (block : Bytes) : Words :=
  mix 0 (submessages (blockWords block 0) (blockWords block 16) 27) chain

/-- The initial chaining value for a digest length.  Lengths without a tabulated value start from a
value that names the length and compress a block of zeros into it. -/
def initialChain (outputBits : Nat) : Words :=
  if outputBits = 224 then iv224
  else if outputBits = 256 then iv256
  else
    compress
      (Vector.ofFn fun j => if j = 0 then 32 else if j = 1 then UInt32.ofNat outputBits else 0)
      (List.replicate 128 0)

/-! ### Streaming -/

/-- A block of input. -/
abbrev Block := Vector UInt8 128

/-- Writes bytes over a block from a position on.  Bytes beyond the end of the block are dropped. -/
def overwrite (block : Block) (start : Nat) (bytes : Bytes) : Block :=
  let bytes := bytes.toArray
  Vector.ofFn fun i =>
    if start ≤ i.val then bytes.getD (i.val - start) (block.get i) else block.get i

/-- A hash computation under way. -/
structure State where
  /-- Length of the digest in bits. -/
  outputBits : Nat
  /-- The chaining value after all whole blocks. -/
  chain : Words
  /-- The block that input is collected in.  Behind the filled bits it holds what earlier input has
  left there. -/
  buffer : Block
  /-- The number of bits of the buffer that are filled. -/
  bitOffset : Nat
  deriving DecidableEq, Repr

/-- The mask that keeps the first `n` bits of a byte, for `n` below 8. -/
def firstBits (n : Nat) : UInt8 := ~~~(0xff >>> UInt8.ofNat n)

/-- The state before any input. -/
def State.initial (outputBits : Nat) : State :=
  ⟨outputBits, initialChain outputBits, Vector.replicate 128 0, 0⟩

/-- The state before any input, for the digest lengths that exist. -/
def State.new (outputBits : Nat) : Except CryptoError State :=
  if outputBits = 0 ∨ 256 < outputBits then .error (.invalidOutputLength outputBits)
  else .ok (.initial outputBits)

/-- Discards all input. -/
def State.reset (s : State) : State := .initial s.outputBits

/-- Writes whole bytes behind the filled ones. -/
def State.write (s : State) (data : Bytes) : State :=
  { s with
    buffer := overwrite s.buffer (s.bitOffset / 8) data
    bitOffset := s.bitOffset + 8 * data.length }

/-- Compresses the buffer and starts to fill it again. -/
def State.flush (s : State) : State :=
  { s with chain := compress s.chain s.buffer.toList, bitOffset := 0 }

/-- Compresses the whole blocks at the front of `data` and writes the rest to the buffer. -/
def State.absorbBlocks (s : State) (data : Bytes) : State :=
  let (chain, rest) := Digest.absorb 127 compress s.chain data
  { s with chain }.write rest

/-- Absorbs whole bytes into a state that ends with a whole byte.  A buffer in use is filled first;
whole blocks after it are not copied. -/
def State.absorb (s : State) (data : Bytes) : State :=
  let gap := 128 - s.bitOffset / 8
  if 0 < s.bitOffset / 8 ∧ gap ≤ data.length then
    (s.write (data.take gap)).flush.absorbBlocks (data.drop gap)
  else s.absorbBlocks data

/-- Absorbs the first `n` bits of `data`, most significant bit first.  After a count that is no
multiple of 8 only empty updates are possible.  The state is passed on with a failure as well. -/
def State.updateBits (s : State) (data : Bytes) (n : Nat) : Except CryptoError Unit × State :=
  if 8 * data.length < n then (.error (.bitLengthOverflow n data.length), s)
  else if n = 0 then (.ok (), s)
  else if s.bitOffset % 8 ≠ 0 then (.error .unalignedUpdate, s)
  else
    let s := s.absorb (data.take (n / 8))
    if n % 8 = 0 then (.ok (), s)
    else
      let last := data.getD (n / 8) 0 &&& firstBits (n % 8)
      (.ok (), { s with
        buffer := overwrite s.buffer (s.bitOffset / 8) [last]
        bitOffset := s.bitOffset + n % 8 })

/-- Absorbs whole bytes. -/
def State.update (s : State) (data : Bytes) : Except CryptoError Unit × State :=
  s.updateBits data (8 * data.length)

/-- The byte that the filled bits end in, with a 1 bit behind them. -/
def State.lastByte (s : State) : UInt8 :=
  if 0 < s.bitOffset % 8 then
    s.buffer.toArray.getD (s.bitOffset / 8) 0 ||| 0x80 >>> UInt8.ofNat (s.bitOffset % 8)
  else 0x80

/-- The last block: the filled bits, one 1 bit, and zeros. -/
def State.lastBlock (s : State) : Block :=
  let whole := s.bitOffset / 8
  overwrite s.buffer whole (s.lastByte :: List.replicate (127 - whole) 0)

/-- Adds the two halves of a chaining value and writes the eight words. -/
def foldChain (chain : Words) : Bytes :=
  (List.finRange 8).flatMap fun (j : Fin 8) =>
    bytesLE32 (chain.get ⟨j, by omega⟩ ^^^ chain.get ⟨j + 8, by omega⟩)

/-- The first `bits` bits of a byte string, filled up with zeros to a whole byte. -/
def truncate (bits : Nat) (bs : Bytes) : Bytes :=
  bs.take (bits / 8) ++
    if bits % 8 = 0 then [] else [bs.getD (bits / 8) 0 &&& firstBits (bits % 8)]

/-- The digest of all input. -/
def State.finish (s : State) : Bytes :=
  truncate s.outputBits (foldChain (compress s.chain s.lastBlock.toList))

/-- A failed update, where it breaks off what it is part of, needs no state. -/
instance : Coe (Except CryptoError Unit × State) (Except CryptoError State) :=
  ⟨fun (answer, s) => answer.map fun _ => s⟩

/-- The digest of a byte string. -/
def digest (outputBits : Nat) (data : Bytes) : Except CryptoError Bytes := do
  let s ← State.new outputBits
  let s ← (s.update data : Except CryptoError State)
  return s.finish

end SigScript.Lsh
