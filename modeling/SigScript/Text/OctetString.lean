import SigScript.CryptoError
import SigScript.Text.Blank

/-!
# Octet strings

Curve parameters are given as hexadecimal texts with blanks anywhere.  The same text can be read as
bytes, two digits each, or as one integer.  The reading as an integer is the more liberal one: it
takes a leading plus sign, and underscores after the first digit.
-/

namespace SigScript.OctetString

/-- The value of a byte that is an ASCII hexadecimal digit. -/
def digit? (b : UInt8) : Option Nat := Numeral.digitValue? 16 (Char.ofNat b.toNat)

/-- Reads pairs of digits.  `position` counts the digits read before. -/
def readPairs (compact : String) (position : Nat) : Bytes → Except OctetFault Bytes
  | [] => .ok []
  | [_] => .error (.oddLength compact)
  | high :: low :: rest =>
    match digit? high with
    | none => .error (.badDigit compact high position)
    | some h =>
      match digit? low with
      | none => .error (.badDigit compact low (position + 1))
      | some l => (readPairs compact (position + 2) rest).map (UInt8.ofNat (16 * h + l) :: ·)

/-- The bytes of an octet string.  An odd number of digits is noticed before a character that is no
digit. -/
def toBytes (text : String) : Except CryptoError Bytes :=
  let compact := Text.compact text
  let octets := Bytes.ofText compact
  let result :=
    if octets.length % 2 = 1 then .error (.oddLength compact) else readPairs compact 0 octets
  result.mapError .invalidOctetString

/-- The integer that an octet string stands for. -/
def toNat (text : String) : Except CryptoError Nat :=
  let compact := Text.compact text
  if compact.isEmpty then .error (.invalidOctetString .empty)
  else
    match Numeral.looseNatural? 16 compact.toList with
    | some n => .ok n
    | none => .error (.invalidOctetString (.notAnInteger compact))

end SigScript.OctetString
