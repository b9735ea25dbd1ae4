import Mathlib
import SigScript.Ecdsa.Signature
import SigScript.Proofs.Der.ObjectIdentifier
import SigScript.PublicKeyInfo

/-!
# One encoding for each value

For every type with an encoding, reading and writing are inverse: what is read is followed by nothing
but what was written behind it, and what is written is read back, whatever follows
(`encodings_are_canonical`).  Values that nobody can make, such as an object identifier without arcs,
are never read.
-/

namespace SigScript

namespace Der.Codec

variable {α : Type} {c : Codec α} {V : α → Prop}

/-- Each value with the property `V` has one encoding, and other values have none.  A value fits when
the contents of its encoding do; contents inside them are shorter still. -/
structure Canonical (c : Codec α) (V : α → Prop) : Prop where
  /-- Octets that are read as a value begin with the encoding of the value. -/
  eq_encode_append : ∀ input v rest, c.read input = .ok v rest →
    V v ∧ c.Fits v ∧ input = c.encode v ++ rest
  /-- The encoding of a value is read back, and all that follows it is left. -/
  read_encode_append : ∀ v rest, V v → c.Fits v → c.read (c.encode v ++ rest) = .ok v rest
  /-- A value has no other complete encoding. -/
  decode_eq_ok_iff : ∀ input v, c.decode input = .ok v ↔ V v ∧ c.Fits v ∧ input = c.encode v

theorem Faithful.canonical (hc : c.Faithful V) : c.Canonical V where
  eq_encode_append _ _ _ h := hc.read_eq_ok_iff.1 h
  read_encode_append _ _ hv hfits := hc.read_eq_ok_iff.2 ⟨hv, hfits, rfl⟩
  decode_eq_ok_iff _ _ := hc.decode_eq_ok_iff

theorem Faithful.congr {W : α → Prop} (hc : c.Faithful V) (h : ∀ v, V v ↔ W v) : c.Faithful W := by
  intro octets v hlength
  rw [hc octets v hlength, h]

end Der.Codec

open Der

theorem Signature.codec_faithful : Signature.codec.Faithful fun _ => True :=
  ((integer_faithful.pair integer_faithful).map (fun _ => rfl) fun _ => rfl).congr fun _ => by simp

/-- The identifiers of the record are constructible.  Any octets can stand for its point. -/
def PublicKeyInfo.Constructible (key : PublicKeyInfo) : Prop :=
  key.algorithm.Constructible ∧ key.curve.Constructible

instance (key : PublicKeyInfo) : Decidable key.Constructible :=
  inferInstanceAs (Decidable (_ ∧ _))

theorem PublicKeyInfo.codec_faithful :
    PublicKeyInfo.codec.Faithful PublicKeyInfo.Constructible := by
  have hidentifiers := ObjectIdentifier.codec_faithful.pair ObjectIdentifier.codec_faithful
  have hkey := (hidentifiers.pair bitString_faithful).map
    (f := fun v => (⟨v.1.1, v.1.2, v.2⟩ : PublicKeyInfo))
    (g := fun key => ((key.algorithm, key.curve), key.point)) (fun _ => rfl) fun _ => rfl
  refine hkey.congr fun key => ?_
  simp [PublicKeyInfo.Constructible]

/-- Decoding and encoding are inverse for every type: octets are read as a value exactly when they
begin with the encoding of the value, and a value is read back from its encoding, whatever follows. -/
theorem encodings_are_canonical :
    integer.Canonical (fun _ => True) ∧ natural.Canonical (fun _ => True) ∧
    bitString.Canonical (fun _ => True) ∧
    ObjectIdentifier.codec.Canonical ObjectIdentifier.Constructible ∧
    Signature.codec.Canonical (fun _ => True) ∧
    PublicKeyInfo.codec.Canonical PublicKeyInfo.Constructible :=
  ⟨integer_faithful.canonical, natural_faithful.canonical, bitString_faithful.canonical,
    ObjectIdentifier.codec_faithful.canonical, Signature.codec_faithful.canonical,
    PublicKeyInfo.codec_faithful.canonical⟩

end SigScript
