import SigScript.Bytes
import SigScript.Text.Octet

/-!
# Failures of the cryptographic layer

`CryptoError` lists every way in which modular arithmetic, a curve, a hash function or a signature
operation can refuse its input; `CryptoError.message` is the text shown for it.
-/

namespace SigScript

open Numeral (decimal decimalInt)

/-- Why a text is not an octet string.  The texts are given without their white space. -/
inductive OctetFault where
  /-- The text has no digits. -/
  | empty
  /-- The text is not a hexadecimal integer. -/
  | notAnInteger (compact : String)
  /-- The last octet lacks its second digit. -/
  | oddLength (compact : String)
  /-- The octet of the text's UTF-8 form at a position is not a hexadecimal digit. -/
  | badDigit (compact : String) (octet : UInt8) (position : Nat)
  deriving DecidableEq, Repr

/-- The text shown for a fault of an octet string. -/
def OctetFault.message : OctetFault → String
  | .empty => "empty octet string"
  | .notAnInteger compact => compact
  | .oddLength compact => compact ++ ": Odd number of digits"
  | .badDigit compact octet position =>
    compact ++ ": Invalid character " ++ Octet.quoted octet ++ " at position " ++ decimal position

/-- Why a cryptographic operation failed. -/
inductive CryptoError where
  /-- The value shares a factor with the modulus. -/
  | notInvertible (value : Int) (modulus : Nat)
  /-- The value has no square root modulo the modulus. -/
  | nonResidue (value modulus : Nat)
  /-- The modulus is not one the operation is defined for. -/
  | invalidModulus (modulus : Nat)
  /-- Two operands belong to different curve domains. -/
  | domainMismatch (left right : String)
  /-- The curve equation has a repeated root. -/
  | singularCurve
  /-- The field is not a prime field of odd characteristic. -/
  | unsupportedField
  /-- A text is not an octet string. -/
  | invalidOctetString (fault : OctetFault)
  /-- A point encoding has neither of the two lengths that the field allows. -/
  | invalidPointLength (actual compressed uncompressed : Nat)
  /-- The first octet of a point encoding does not fit the rest. -/
  | invalidPointPrefix (octet : UInt8)
  /-- A coordinate is not below the field modulus. -/
  | fieldElementOutOfRange (value modulus : Nat)
  /-- Coordinates do not satisfy the curve equation. -/
  | pointNotOnCurve
  /-- A private scalar is outside `[1, n-1]`. -/
  | invalidPrivateKey
  /-- A hash function does not offer the digest length. -/
  | invalidOutputLength (bits : Nat)
  /-- Input follows an update that ended inside a byte. -/
  | unalignedUpdate
  /-- More bits are announced than the input holds. -/
  | bitLengthOverflow (bits available : Nat)
  deriving DecidableEq, Repr

/-- The text shown for a failure. -/
def CryptoError.message : CryptoError → String
  | .notInvertible value modulus =>
    decimalInt value ++ " is not invertible modulo " ++ decimal modulus
  | .nonResidue value modulus =>
    decimal value ++ " is not a quadratic residue modulo " ++ decimal modulus
  | .invalidModulus modulus => "invalid modulus " ++ decimal modulus
  | .domainMismatch left right => "curve domain mismatch: " ++ left ++ " vs " ++ right
  | .singularCurve => "singular curve: 4a^3 + 27b^2 = 0 mod p"
  | .unsupportedField => "binary fields are not supported"
  | .invalidOctetString fault => "invalid octet string: " ++ fault.message
  | .invalidPointLength actual compressed uncompressed =>
    "invalid point encoding length " ++ decimal actual ++ ", expected " ++ decimal compressed ++
      " or " ++ decimal uncompressed
  | .invalidPointPrefix octet => "invalid point prefix 0x" ++ Bytes.toHex [octet]
  | .fieldElementOutOfRange value modulus =>
    "field F_" ++ decimal modulus ++ " does not contain " ++ decimal value
  | .pointNotOnCurve => "point is not on the curve"
  | .invalidPrivateKey => "private scalar must be in [1, n-1]"
  | .invalidOutputLength bits =>
    "output length must be between 1 and 256 bits, got " ++ decimal bits
  | .unalignedUpdate => "bit level update is only allowed as the last update"
  | .bitLengthOverflow bits available =>
    "bit length " ++ decimal bits ++ " exceeds input of " ++ decimal available ++ " bytes"

end SigScript
