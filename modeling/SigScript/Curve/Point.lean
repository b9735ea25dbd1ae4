import SigScript.Curve.Domain
import SigScript.Residue.Inverse

/-!
# Points of a domain

Addition by chord and tangent, multiples by doubling and adding, and the same for points that carry
their domain.  Over a field addition never fails; modulo a composite number the denominator of a
slope may have no inverse.
-/

namespace SigScript

/-- The difference of two numbers below `p`, modulo `p`. -/
def subMod (a b p : Nat) : Nat := if b ≤ a then a - b else p - (b - a)

namespace Curve

/-- The third point on a line through a point of abscissa `x₂` and the point `(x₁, y₁)`, reflected
across the axis. -/
def reflectedThird (E : Curve) (slope x₁ y₁ x₂ : Nat) : Coordinates :=
  let x₃ := subMod (slope * slope % E.modulus) ((x₁ + x₂) % E.modulus) E.modulus
  .affine x₃ (subMod (slope * subMod x₁ x₃ E.modulus % E.modulus) y₁ E.modulus)

/-- The slope of the tangent at a point. -/
def tangentSlope (E : Curve) (x y : Nat) : Except CryptoError Nat := do
  let inverse ← Residue.inverse (2 * y % E.modulus : Nat) E.modulus
  return (3 * (x * x) + E.a) % E.modulus * inverse % E.modulus

/-- The slope of the line through two points of different abscissas. -/
def chordSlope (E : Curve) (x₁ y₁ x₂ y₂ : Nat) : Except CryptoError Nat := do
  let inverse ← Residue.inverse (subMod x₂ x₁ E.modulus) E.modulus
  return subMod y₂ y₁ E.modulus * inverse % E.modulus

/-- The sum of two points. -/
def add (E : Curve) : (P Q : Coordinates) → Except CryptoError Coordinates
  | .infinity, Q => .ok Q
  | P, .infinity => .ok P
  | .affine x₁ y₁, .affine x₂ y₂ =>
    if x₁ = x₂ then
      if y₁ ≠ y₂ ∨ y₁ = 0 then .ok .infinity
      else do return E.reflectedThird (← E.tangentSlope x₁ y₁) x₁ y₁ x₂
    else do return E.reflectedThird (← E.chordSlope x₁ y₁ x₂ y₂) x₁ y₁ x₂

/-- The reflection of a point across the axis. -/
def neg (E : Curve) : Coordinates → Coordinates
  | .infinity => .infinity
  | .affine x y => .affine x (subMod 0 y E.modulus % E.modulus)

/-- One step of double and add: the multiple so far is doubled and `P` is added for a 1 bit. -/
def mulStep (E : Curve) (P acc : Coordinates) (bit : Bool) : Except CryptoError Coordinates := do
  let twice ← E.add acc acc
  if bit then E.add twice P else return twice

/-- The multiple `k P`. -/
def mul (E : Curve) (k : Nat) (P : Coordinates) : Except CryptoError Coordinates :=
  (Binary.bits k).foldlM (E.mulStep P) .infinity

end Curve

/-- A point with its domain.  Only points of equal domains can be added. -/
structure CurvePoint where
  domain : Domain
  coordinates : Coordinates
  deriving DecidableEq, Repr

/-- The base point of a domain. -/
def Domain.basePoint (d : Domain) : CurvePoint := ⟨d, d.generator⟩

namespace CurvePoint

/-- The point at infinity of a domain. -/
def infinity (d : Domain) : CurvePoint := ⟨d, .infinity⟩

/-- The point with the given coordinates, which must be on the curve. -/
def create (d : Domain) (x y : Nat) : Except CryptoError CurvePoint :=
  if d.Contains x y then .ok ⟨d, .affine x y⟩ else .error .pointNotOnCurve

/-- Decodes a point of a domain. -/
def ofOctets (d : Domain) (octets : Bytes) : Except CryptoError CurvePoint :=
  (d.decode octets).map (CurvePoint.mk d)

/-- Whether the point is on the curve of its domain. -/
def OnCurve (P : CurvePoint) : Prop := P.domain.HasPoint P.coordinates

instance (P : CurvePoint) : Decidable P.OnCurve :=
  inferInstanceAs (Decidable (P.domain.HasPoint P.coordinates))

/-- Refuses a point of another domain. -/
def checkDomain (d : Domain) (P : CurvePoint) : Except CryptoError Unit :=
  if P.domain = d then .ok () else .error (.domainMismatch d.name P.domain.name)

/-- The sum of two points of one domain. -/
def add (P Q : CurvePoint) : Except CryptoError CurvePoint := do
  checkDomain P.domain Q
  return ⟨P.domain, ← P.domain.toCurve.add P.coordinates Q.coordinates⟩

/-- The sum of a point with itself. -/
def double (P : CurvePoint) : Except CryptoError CurvePoint := P.add P

/-- The negative of a point. -/
def neg (P : CurvePoint) : CurvePoint := ⟨P.domain, P.domain.toCurve.neg P.coordinates⟩

/-- The multiple of a point by a natural number. -/
def mulNat (k : Nat) (P : CurvePoint) : Except CryptoError CurvePoint :=
  (P.domain.toCurve.mul k P.coordinates).map (CurvePoint.mk P.domain)

/-- The multiple of a point by an integer: the multiple by its magnitude, negated for a negative
one. -/
def mul (k : Int) (P : CurvePoint) : Except CryptoError CurvePoint :=
  if k < 0 then (P.mulNat k.natAbs).map neg else P.mulNat k.natAbs

/-- The compressed form of a point. -/
def toOctets (P : CurvePoint) : Bytes := P.domain.compressed P.coordinates

/-- The uncompressed form of a point. -/
def toUncompressedOctets (P : CurvePoint) : Bytes := P.domain.uncompressed P.coordinates

/-- The text of a point. -/
def text (P : CurvePoint) : String :=
  let coordinates :=
    match P.coordinates with
    | .infinity => "infinity"
    | .affine x y => "(" ++ Numeral.decimal x ++ ", " ++ Numeral.decimal y ++ ")"
  coordinates ++ " on " ++ P.domain.text

end CurvePoint

end SigScript
