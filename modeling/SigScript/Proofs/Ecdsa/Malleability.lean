import Mathlib
import SigScript.Proofs.Ecdsa.Totality

/-!
# Two signatures for one

Verification looks at the abscissa of a point only, so it cannot tell the point from its reflection.
With `n - s` in the place of the second component `s` the inverse modulo the order `n` is negated,
with it both scalars (`IsScalar.modEq_order_sub`) and the verification point
(`verificationPoint_order_sub`).  So the verdict stays what it was (`verify_order_sub`).
-/

namespace SigScript

theorem Curve.x?_neg (E : Curve) (P : Coordinates) : (E.neg P).x? = P.x? := by
  cases P with
  | infinity => rfl
  | affine x y => rfl

namespace Domain

variable {d : Domain} {k : Nat}

theorem IsScalar.order_sub (hk : d.IsScalar k) : d.IsScalar (d.order - k) := by
  obtain ⟨hpos, hlt⟩ := hk
  constructor <;> omega

/-- The inverses of `k` and of `n - k` are opposite, and so are their multiples modulo `n`. -/
theorem IsScalar.modEq_order_sub (hn : d.order.Prime) (hk : d.IsScalar k) (m : Nat) :
    m * ((d.order - k : Nat) : ZMod d.order)⁻¹.val % d.order +
      m * (k : ZMod d.order)⁻¹.val % d.order ≡ 0 [MOD d.order] := by
  have : Fact d.order.Prime := ⟨hn⟩
  rw [← ZMod.natCast_eq_natCast_iff]
  push_cast [ZMod.natCast_mod, ZMod.natCast_zmod_val, Nat.cast_sub hk.2.le]
  rw [ZMod.natCast_self, zero_sub, inv_neg, mul_neg, neg_add_cancel]

variable [Fact d.modulus.Prime] {A : d.toWeierstrass.Point}

theorem IsScalar.nsmul_order_sub (hn : d.order.Prime) (hk : d.IsScalar k) (m : Nat)
    (hA : d.order • A = 0) :
    (m * ((d.order - k : Nat) : ZMod d.order)⁻¹.val % d.order) • A =
      -((m * (k : ZMod d.order)⁻¹.val % d.order) • A) := by
  apply eq_neg_of_add_eq_zero_left
  rw [← add_nsmul, nsmul_eq_nsmul_of_modEq (hk.modEq_order_sub hn m) hA, zero_nsmul]

end Domain

namespace Ecdsa

variable {scheme : Ecdsa} {Q : CurvePoint}

section Prime

variable [Fact scheme.domain.modulus.Prime] {A B : scheme.domain.toWeierstrass.Point} {s : Nat}

/-- Both components of the combination are negated, because the order annihilates both points. -/
theorem verificationPoint_order_sub (hA : scheme.domain.GeneratedBy A)
    (hB : scheme.domain.order • B = 0) (hs : scheme.domain.IsScalar s) (e r : Nat) :
    ∃ point, scheme.verificationPoint (scheme.domain.point B) e r s = .ok point ∧
      scheme.verificationPoint (scheme.domain.point B) e r (scheme.domain.order - s) =
        .ok point.neg := by
  have hinverse := hs.inverse_eq hA.prime_order
  have hopposite := hs.order_sub.inverse_eq hA.prime_order
  refine ⟨_, verificationPoint_point hA.accepted hA.basePoint_eq e r hinverse, ?_⟩
  rw [verificationPoint_point hA.accepted hA.basePoint_eq e r hopposite,
    hs.nsmul_order_sub hA.prime_order e hA.order_nsmul, hs.nsmul_order_sub hA.prime_order r hB,
    ← neg_add, Domain.neg_point]

end Prime

/-- Over a prime order that annihilates the base point and the public key, the second component `s`
of a signature and `n - s` lead to a point and its reflection, whatever the message scalar is, and
verification gives the same verdict on both. -/
theorem verify_order_sub (hd : scheme.domain.Accepted) (hp : scheme.domain.modulus.Prime)
    (hn : scheme.domain.order.Prime)
    (hG : scheme.domain.basePoint.mulNat scheme.domain.order = .ok (.infinity scheme.domain))
    (hhash : scheme.hash.Supported) (hQ : Q.LiesOn scheme.domain)
    (hnQ : Q.mulNat scheme.domain.order = .ok (.infinity scheme.domain)) (message : Bytes)
    (r : Int) {s : Int} (hs : scheme.InRange s) :
    scheme.verify Q message ⟨r, s⟩ = scheme.verify Q message ⟨r, scheme.domain.order - s⟩ ∧
    ∀ e, ∃ point, scheme.verificationPoint Q e r.toNat s.toNat = .ok point ∧
      scheme.verificationPoint Q e r.toNat (scheme.domain.order - s).toNat = .ok point.neg := by
  have : Fact scheme.domain.modulus.Prime := ⟨hp⟩
  obtain ⟨A, hA⟩ := hd.exists_generatedBy hn hG
  obtain ⟨B, rfl⟩ := scheme.domain.exists_point hd hQ
  have hB : scheme.domain.order • B = 0 := (Domain.mulNat_point_eq_infinity_iff hd).1 hnQ
  obtain ⟨k, rfl⟩ := Int.eq_ofNat_of_zero_le hs.1.le
  have hk : scheme.domain.IsScalar k := inRange_natCast_iff.1 hs
  have hopposite : ((scheme.domain.order : Int) - k) = (scheme.domain.order - k : Nat) :=
    (Nat.cast_sub hk.2.le).symm
  have hpoints := verificationPoint_order_sub hA hB hk
  rw [hopposite]
  refine ⟨?_, fun e => hpoints e r.toNat⟩
  by_cases hpass : scheme.InRange r ∧ (scheme.domain.point B).coordinates ≠ .infinity
  · obtain ⟨e, he⟩ := exists_messageScalar hhash message
    obtain ⟨point, hpoint, hneg⟩ := hpoints e r.toNat
    have habscissa : point.neg.coordinates.x? = point.coordinates.x? := Curve.x?_neg _ _
    rw [verify_of_passes hQ hpass.1 hs hpass.2 he,
      verify_of_passes hQ hpass.1 (inRange_natCast_iff.2 hk.order_sub) hpass.2 he, Int.toNat_natCast,
      Int.toNat_natCast, hpoint, hneg, map_ok, map_ok, habscissa]
  · rw [verify_of_refused hQ.1 (by tauto), verify_of_refused hQ.1 (by tauto)]

/-- A signature of the empty message and its other form are both valid. -/
theorem verify_order_sub_two :
    (⟨.sevenPoints, .sha256⟩ : Ecdsa).verify ⟨.sevenPoints, .affine 2 2⟩ [] ⟨1, 5⟩ = .ok true ∧
    (⟨.sevenPoints, .sha256⟩ : Ecdsa).verify ⟨.sevenPoints, .affine 2 2⟩ [] ⟨1, 7 - 5⟩ =
      .ok true := by
  have hvalid : (⟨.sevenPoints, .sha256⟩ : Ecdsa).verify ⟨.sevenPoints, .affine 2 2⟩ [] ⟨1, 5⟩ =
      .ok true := by decide +kernel
  have hsame := @verify_order_sub ⟨.sevenPoints, .sha256⟩ ⟨.sevenPoints, .affine 2 2⟩ (by decide)
    Nat.prime_three Nat.prime_seven (by decide +kernel) (by decide) (by decide) (by decide +kernel)
    [] 1 5 (by decide)
  exact ⟨hvalid, hsame.1.symm.trans hvalid⟩

end Ecdsa

end SigScript
