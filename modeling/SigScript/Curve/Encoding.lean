import SigScript.Curve.Basic
import SigScript.Residue.SquareRoot

/-!
# Points as octets

The three forms of a point: a zero octet for infinity, `02` or `03` and the `x` coordinate (the
compressed form, which names the parity of `y`), and `04` with both coordinates.  Coordinates have
the length of the field modulus.
-/

namespace SigScript

namespace Curve

/-- The number of octets of a coordinate. -/
def coordinateLength (E : Curve) : Nat := Bytes.byteLength E.modulus

/-- The compressed form of a point. -/
def compressed (E : Curve) : Coordinates → Bytes
  | .infinity => [0x00]
  | .affine x y =>
    (if y % 2 = 1 then 0x03 else 0x02) :: Bytes.ofNatPadded E.coordinateLength x

/-- The uncompressed form of a point. -/
def uncompressed (E : Curve) : Coordinates → Bytes
  | .infinity => [0x00]
  | .affine x y =>
    0x04 :: Bytes.ofNatPadded E.coordinateLength x ++ Bytes.ofNatPadded E.coordinateLength y

/-- Reads a reduced coordinate. -/
def readCoordinate (E : Curve) (octets : Bytes) : Except CryptoError Nat := do
  let value := Bytes.toNat octets
  E.checkReduced value
  return value

/-- The square root of the right-hand side at `x` with the given parity.  The root 0 has no odd
partner; `octet` is the first octet of the encoding, shown when an odd root is asked for then. -/
def liftX (E : Curve) (octet : UInt8) (odd : Bool) (x : Nat) : Except CryptoError Nat := do
  let root ← Residue.sqrt (E.rhs x) E.modulus
  if root = 0 ∧ odd then .error (.invalidPointPrefix octet)
  else if decide (root % 2 = 1) = odd then return root
  else return (E.modulus - root) % E.modulus

/-- Decodes the compressed form. -/
def decodeCompressed (E : Curve) (octet : UInt8) (rest : Bytes) :
    Except CryptoError Coordinates :=
  if octet = 0x02 ∨ octet = 0x03 then do
    let x ← E.readCoordinate rest
    let y ← E.liftX octet (octet = 0x03) x
    return .affine x y
  else .error (.invalidPointPrefix octet)

/-- Decodes the uncompressed form. -/
def decodeUncompressed (E : Curve) (octet : UInt8) (rest : Bytes) :
    Except CryptoError Coordinates :=
  if octet = 0x04 then do
    let x ← E.readCoordinate (rest.take E.coordinateLength)
    let y ← E.readCoordinate (rest.drop E.coordinateLength)
    if E.Satisfies x y then return .affine x y else .error .pointNotOnCurve
  else .error (.invalidPointPrefix octet)

/-- Decodes a point.  The length alone decides between the two forms. -/
def decode (E : Curve) (octets : Bytes) : Except CryptoError Coordinates :=
  if octets = [0x00] then .ok .infinity
  else if E.modulus % 2 = 0 then .error .unsupportedField
  else
    match octets with
    | octet :: rest =>
      if rest.length = E.coordinateLength then E.decodeCompressed octet rest
      else if rest.length = 2 * E.coordinateLength then E.decodeUncompressed octet rest
      else .error (lengthError E octets.length)
    | [] => .error (lengthError E 0)
where
  /-- The failure for an encoding of the wrong length. -/
  lengthError (E : Curve) (actual : Nat) : CryptoError :=
    .invalidPointLength actual (1 + E.coordinateLength) (1 + 2 * E.coordinateLength)

end Curve

end SigScript
