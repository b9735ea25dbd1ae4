import SigScript.Der.ObjectIdentifier

/-!
# Public key records

A public key record names an algorithm and a curve and holds an encoded point, which is decoded only
when a signature is checked.
-/

namespace SigScript

/-- A public key: algorithm, curve and encoded point. -/
structure PublicKeyInfo where
  algorithm : ObjectIdentifier
  curve : ObjectIdentifier
  point : Bytes
  deriving DecidableEq, Repr

namespace PublicKeyInfo

/-- The record of a key on an elliptic curve. -/
def ec (curve : ObjectIdentifier) (point : Bytes) : PublicKeyInfo :=
  ⟨.ecPublicKey, curve, point⟩

/-- Whether the key belongs to an elliptic curve. -/
def IsEc (key : PublicKeyInfo) : Prop := key.algorithm = .ecPublicKey

instance (key : PublicKeyInfo) : Decidable key.IsEc := inferInstanceAs (Decidable (_ = _))

/-- A sequence of the pair of identifiers and the point as a bit string. -/
def codec : Der.Codec PublicKeyInfo :=
  (Der.pair (Der.pair ObjectIdentifier.codec ObjectIdentifier.codec) Der.bitString).map
    (fun v => ⟨v.1.1, v.1.2, v.2⟩) fun key => ((key.algorithm, key.curve), key.point)

/-- The text of a key. -/
def text (key : PublicKeyInfo) : String :=
  "PublicKey(" ++ key.algorithm.text ++ ", " ++ key.curve.text ++ ", " ++
    Bytes.toHex key.point ++ ")"

end PublicKeyInfo

end SigScript
