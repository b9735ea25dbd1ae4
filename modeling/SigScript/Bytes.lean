import SigScript.Binary
import SigScript.Text.Numeral

/-!
# Byte strings

A byte string is a list of bytes.  Here are the big-endian readings of one: as a natural number
(`toNat`, written back by `ofNat` and `ofNatPadded`), as an integer in two's complement (`toInt`,
written back by `ofInt`), and its hexadecimal text.
-/

namespace SigScript

/-- A byte string. -/
abbrev Bytes := List UInt8

namespace Bytes

/-! ### Natural numbers -/

/-- The natural number that a byte string stands for, most significant byte first. -/
def toNat (bs : Bytes) : Nat := bs.foldl (fun n b => n * 256 + b.toNat) 0

/-- The last `width` bytes of `n`, most significant first. -/
def ofNatPadded : (width : Nat) → (n : Nat) → Bytes
  | 0, _ => []
  | width + 1, n => ofNatPadded width (n / 256) ++ [UInt8.ofNat (n % 256)]

/-- The number of bytes that `n` needs; zero needs none. -/
def byteLength (n : Nat) : Nat := (Binary.bitLength n + 7) / 8

/-- The bytes of `n`, most significant first, without leading zeros. -/
def ofNat (n : Nat) : Bytes := ofNatPadded (byteLength n) n

/-! ### Integers in two's complement -/

/-- The number of bytes of the shortest two's complement form of `z`.  One bit more than the
magnitude needs is kept for the sign; zero takes one byte. -/
def signedLength (z : Int) : Nat :=
  Binary.bitLength (if z < 0 then z.natAbs - 1 else z.natAbs) / 8 + 1

/-- The last `width` bytes of the two's complement form of `z`, most significant first. -/
def ofIntPadded : (width : Nat) → (z : Int) → Bytes
  | 0, _ => []
  | width + 1, z => ofIntPadded width (z / 256) ++ [UInt8.ofNat (z % 256).toNat]

/-- The shortest two's complement form of `z`, most significant byte first. -/
def ofInt (z : Int) : Bytes := ofIntPadded (signedLength z) z

/-- The value of the first byte of a two's complement form. -/
def signedByte (b : UInt8) : Int := if b < 0x80 then b.toNat else b.toNat - 256

/-- The integer that a byte string stands for in two's complement. -/
def toInt : Bytes → Int
  | [] => 0
  | first :: rest => rest.foldl (fun z b => z * 256 + b.toNat) (signedByte first)

/-! ### Text -/

/-- The two hexadecimal digits of a byte, in lower case. -/
def hexPair (b : UInt8) : List Char :=
  [Numeral.digitChar (b.toNat / 16), Numeral.digitChar (b.toNat % 16)]

/-- Lower-case hexadecimal text, two digits a byte. -/
def toHex (bs : Bytes) : String := String.ofList (bs.flatMap hexPair)

/-- The bytes of the UTF-8 form of a text. -/
def ofText (text : String) : Bytes := text.toUTF8.toList

end Bytes

end SigScript
