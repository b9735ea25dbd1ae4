import SigScript.Curve.Encoding
import SigScript.Text.OctetString

/-!
# Curve domains

A domain is a curve with a name, a base point, the order of the base point and a cofactor.
`Domain.create` checks what all later work relies on: an odd modulus, a curve without a repeated
root, and a base point on it.  The order and the cofactor are taken as given.
-/

namespace SigScript

/-- The parameters of a curve domain. -/
structure Domain extends Curve where
  name : String
  /-- The base point. -/
  generator : Coordinates
  /-- The order of the base point. -/
  order : Nat
  cofactor : Nat
  deriving DecidableEq, Repr

namespace Domain

/-- Whether the cubic `x³ + ax + b` has a repeated root. -/
def IsSingular (p a b : Nat) : Prop := (4 * (a * a * a) + 27 * (b * b)) % p = 0

instance (p a b : Nat) : Decidable (IsSingular p a b) := inferInstanceAs (Decidable (_ = _))

/-- Refuses a base point that is not on the curve. -/
def checkGenerator (E : Curve) : Coordinates → Except CryptoError Unit
  | .infinity => .ok ()
  | .affine x y => do
    E.checkReduced x
    E.checkReduced y
    if E.Satisfies x y then return () else .error .pointNotOnCurve

/-- The domain with the given parameters; `a` and `b` are reduced modulo `p`. -/
def create (name : String) (p a b : Nat) (generator : Coordinates) (order cofactor : Nat) :
    Except CryptoError Domain :=
  if p % 2 = 0 ∨ p < 3 then .error .unsupportedField
  else
    let E : Curve := ⟨p, a % p, b % p⟩
    if IsSingular p E.a E.b then .error .singularCurve
    else do
      checkGenerator E generator
      return { E with name, generator, order, cofactor }

/-- The domain whose parameters are given as octet strings.  The numbers are read before the base
point, which is decoded against the parameters as given. -/
def ofOctetStrings (name p a b generator order cofactor : String) :
    Except CryptoError Domain := do
  let p ← OctetString.toNat p
  let a ← OctetString.toNat a
  let b ← OctetString.toNat b
  let order ← OctetString.toNat order
  let cofactor ← OctetString.toNat cofactor
  let octets ← OctetString.toBytes generator
  let generator ← Curve.decode ⟨p, a, b⟩ octets
  create name p a b generator order cofactor

/-- The text of a domain. -/
def text (d : Domain) : String :=
  d.name ++ ": y^2 = x^3 + " ++ Numeral.decimal d.a ++ "x + " ++ Numeral.decimal d.b ++
    " over F_" ++ Numeral.decimal d.modulus

/-! ### Named domains -/

/-- The curve `secp256r1`. -/
def secp256r1 : Domain where
  name := "secp256r1"
  modulus := 0xFFFFFFFF00000001000000000000000000000000FFFFFFFFFFFFFFFFFFFFFFFF
  a := 0xFFFFFFFF00000001000000000000000000000000FFFFFFFFFFFFFFFFFFFFFFFC
  b := 0x5AC635D8AA3A93E7B3EBBD55769886BC651D06B0CC53B0F63BCE3C3E27D2604B
  generator := .affine
    0x6B17D1F2E12C4247F8BCE6E563A440F277037D812DEB33A0F4A13945D898C296
    0x4FE342E2FE1A7F9B8EE7EB4A7C0F9E162BCE33576B315ECECBB6406837BF51F5
  order := 0xFFFFFFFF00000000FFFFFFFFFFFFFFFFBCE6FAADA7179E84F3B9CAC2FC632551
  cofactor := 1

/-- The curve `secp256k1`. -/
def secp256k1 : Domain where
  name := "secp256k1"
  modulus := 0xFFFFFFFFFFFFFFFFFFFFFFFFFFFFFFFFFFFFFFFFFFFFFFFFFFFFFFFEFFFFFC2F
  a := 0
  b := 7
  generator := .affine
    0x79BE667EF9DCBBAC55A06295CE870B07029BFCDB2DCE28D959F2815B16F81798
    0x483ADA7726A3C4655DA4FBFC0E1108A8FD17B448A68554199C47D08FFB10D4B8
  order := 0xFFFFFFFFFFFFFFFFFFFFFFFFFFFFFFFEBAAEDCE6AF48A03BBFD25E8CD0364141
  cofactor := 1

end Domain

end SigScript
