import SigScript.Bytes

/-!
# Machine words in byte strings

Rotations of 32-bit and 64-bit words and their forms as bytes, in both byte orders.
-/

namespace SigScript.Digest

/-- Rotation to the left by `n` bits. -/
def rotateLeft32 (x n : UInt32) : UInt32 := x <<< n ||| x >>> (32 - n)

/-- Rotation to the right by `n` bits. -/
def rotateRight32 (x n : UInt32) : UInt32 := x >>> n ||| x <<< (32 - n)

/-- Rotation to the left by `n` bits. -/
def rotateLeft64 (x n : UInt64) : UInt64 := x <<< n ||| x >>> (64 - n)

/-- The 32-bit words of a byte string, least significant byte first. -/
def wordsLE32 : Bytes → List UInt32
  | b₀ :: b₁ :: b₂ :: b₃ :: rest =>
    (b₀.toUInt32 ||| b₁.toUInt32 <<< 8 ||| b₂.toUInt32 <<< 16 ||| b₃.toUInt32 <<< 24) ::
      wordsLE32 rest
  | _ => []

/-- The 32-bit words of a byte string, most significant byte first. -/
def wordsBE32 : Bytes → List UInt32
  | b₃ :: b₂ :: b₁ :: b₀ :: rest =>
    (b₀.toUInt32 ||| b₁.toUInt32 <<< 8 ||| b₂.toUInt32 <<< 16 ||| b₃.toUInt32 <<< 24) ::
      wordsBE32 rest
  | _ => []

/-- The 64-bit words of a byte string, least significant byte first. -/
def wordsLE64 (bs : Bytes) : List UInt64 := join (wordsLE32 bs)
where
  /-- Pairs of 32-bit words, the lower half first. -/
  join : List UInt32 → List UInt64
    | low :: high :: rest => (low.toUInt64 ||| high.toUInt64 <<< 32) :: join rest
    | _ => []

/-- The bytes of a word, least significant first. -/
def bytesLE32 (w : UInt32) : Bytes :=
  [w.toUInt8, (w >>> 8).toUInt8, (w >>> 16).toUInt8, (w >>> 24).toUInt8]

/-- The bytes of a word, most significant first. -/
def bytesBE32 (w : UInt32) : Bytes := (bytesLE32 w).reverse

/-- The bytes of a word, least significant first. -/
def bytesLE64 (w : UInt64) : Bytes := bytesLE32 w.toUInt32 ++ bytesLE32 (w >>> 32).toUInt32

end SigScript.Digest
