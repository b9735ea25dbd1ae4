import SigScript.CryptoError

/-!
# Elliptic curves

The curve `y² = x³ + ax + b` over the integers modulo `p`.  Nothing here needs `p` to be prime.
-/

namespace SigScript

/-- A curve in short Weierstrass form. -/
structure Curve where
  /-- The modulus `p` of the field. -/
  modulus : Nat
  a : Nat
  b : Nat
  deriving DecidableEq, Repr

/-- The point at infinity or a pair of coordinates. -/
inductive Coordinates where
  | infinity
  | affine (x y : Nat)
  deriving DecidableEq, Repr

namespace Coordinates

/-- The `x` coordinate; infinity has none. -/
def x? : Coordinates → Option Nat
  | infinity => none
  | affine x _ => some x

/-- The `y` coordinate; infinity has none. -/
def y? : Coordinates → Option Nat
  | infinity => none
  | affine _ y => some y

end Coordinates

namespace Curve

/-- The right-hand side of the equation. -/
def rhs (E : Curve) (x : Nat) : Nat := (x * x * x + E.a * x + E.b) % E.modulus

/-- Whether coordinates satisfy the equation, reduced or not. -/
def Satisfies (E : Curve) (x y : Nat) : Prop := y * y % E.modulus = E.rhs x

instance (E : Curve) (x y : Nat) : Decidable (E.Satisfies x y) :=
  inferInstanceAs (Decidable (_ = _))

/-- Whether coordinates are reduced and satisfy the equation. -/
def Contains (E : Curve) (x y : Nat) : Prop := x < E.modulus ∧ y < E.modulus ∧ E.Satisfies x y

instance (E : Curve) (x y : Nat) : Decidable (E.Contains x y) :=
  inferInstanceAs (Decidable (_ ∧ _ ∧ _))

/-- Whether a point is on the curve; infinity always is. -/
def HasPoint (E : Curve) : Coordinates → Prop
  | .infinity => True
  | .affine x y => E.Contains x y

instance (E : Curve) : (P : Coordinates) → Decidable (E.HasPoint P)
  | .infinity => inferInstanceAs (Decidable True)
  | .affine x y => inferInstanceAs (Decidable (E.Contains x y))

/-- Refuses a number that is not reduced. -/
def checkReduced (E : Curve) (value : Nat) : Except CryptoError Unit :=
  if value < E.modulus then .ok () else .error (.fieldElementOutOfRange value E.modulus)

end Curve

end SigScript
