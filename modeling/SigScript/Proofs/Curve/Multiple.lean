import Mathlib
import SigScript.Binary.Lemmas
import SigScript.Proofs.Curve.Group

/-!
# Multiples of points

Double and add computes the multiple in the group (`mul_ofPoint`).  Every step keeps the
accumulator at `m P`, where `m` is the number that the bits read so far stand for
(`mulStep_ofPoint`).  So multiplication by integers is their action on the points
(`mul_is_integer_action`).
-/

namespace SigScript

/-! ### Double and add -/

namespace Curve

variable {E : Curve} [Fact E.modulus.Prime] [NeZero (2 : ZMod E.modulus)]

theorem mulStep_ofPoint (A : E.toWeierstrass.Point) (m : Nat) (bit : Bool) :
    E.mulStep (ofPoint A) (ofPoint (m • A)) bit = .ok (ofPoint ((2 * m + bit.toNat) • A)) := by
  have hdouble : m • A + m • A = (2 * m) • A := by rw [← add_nsmul, two_mul]
  rw [mulStep, add_ofPoint, ok_bind, hdouble]
  cases bit with
  | false => rfl
  | true =>
    rw [if_pos rfl, add_ofPoint]
    congr 2
    exact (succ_nsmul A (2 * m)).symm

theorem foldlM_mulStep (A : E.toWeierstrass.Point) (bs : List Bool) (m : Nat) :
    bs.foldlM (E.mulStep (ofPoint A)) (ofPoint (m • A)) =
      .ok (ofPoint (bs.foldl (fun n b => 2 * n + b.toNat) m • A)) := by
  -- The induction is on the bits that are left, whatever multiple has been reached.
  induction bs generalizing m with
  | nil => rfl
  | cons b bs ih => rw [List.foldlM_cons, mulStep_ofPoint, ok_bind, ih, List.foldl_cons]

/-- Double and add never fails, and it computes the multiple in the group. -/
theorem mul_ofPoint (k : Nat) (A : E.toWeierstrass.Point) :
    E.mul k (ofPoint A) = .ok (ofPoint (k • A)) := by
  have hfold := foldlM_mulStep A (Binary.bits k) 0
  rw [zero_nsmul, ofPoint_zero] at hfold
  have hbits : (Binary.bits k).foldl (fun n b => 2 * n + b.toNat) 0 = k := Binary.ofBits_bits k
  rw [mul, hfold, hbits]

end Curve

/-! ### Multiples of the points of a domain -/

namespace CurvePoint

/-- The point added `k` times to infinity. -/
def addTimes (P : CurvePoint) : Nat → Except CryptoError CurvePoint
  | 0 => .ok (infinity P.domain)
  | k + 1 => addTimes P k >>= fun Q => Q.add P

theorem mul_natCast (k : Nat) (P : CurvePoint) : P.mul k = P.mulNat k := by
  rw [mul, if_neg (by omega), Int.natAbs_natCast]

end CurvePoint

namespace Domain

variable {d : Domain} [Fact d.modulus.Prime]

theorem mulNat_point (hd : d.Accepted) (k : Nat) (A : d.toWeierstrass.Point) :
    (d.point A).mulNat k = .ok (d.point (k • A)) := by
  have : NeZero (2 : ZMod d.modulus) := ⟨hd.two_ne_zero⟩
  have hmul : d.toCurve.mul k (d.point A).coordinates = .ok (Curve.ofPoint (k • A)) :=
    Curve.mul_ofPoint k A
  rw [CurvePoint.mulNat]
  exact congrArg (Except.map (CurvePoint.mk d)) hmul

theorem mulNat_point_eq_infinity_iff (hd : d.Accepted) {k : Nat} {A : d.toWeierstrass.Point} :
    (d.point A).mulNat k = .ok (.infinity d) ↔ k • A = 0 := by
  rw [mulNat_point hd, Except.ok.injEq]
  constructor
  · intro h
    exact Curve.ofPoint_eq_infinity_iff.1 (congrArg CurvePoint.coordinates h)
  · intro h
    rw [h, point_zero]

theorem mul_point (hd : d.Accepted) (k : Int) (A : d.toWeierstrass.Point) :
    (d.point A).mul k = .ok (d.point (k • A)) := by
  rw [CurvePoint.mul, mulNat_point hd]
  split
  · rw [map_ok, neg_point, ← natCast_zsmul, ← neg_zsmul]
    congr 3
    omega
  · rw [← natCast_zsmul]
    congr 3
    omega

theorem addTimes_point (hd : d.Accepted) (k : Nat) (A : d.toWeierstrass.Point) :
    (d.point A).addTimes k = .ok (d.point (k • A)) := by
  induction k with
  | zero =>
    rw [zero_nsmul]
    rfl
  | succ k ih => rw [CurvePoint.addTimes, ih, ok_bind, add_point hd, succ_nsmul]

end Domain

/-- Multiplication by integers is total and is their action on the points of an accepted domain of
prime modulus. -/
theorem mul_is_integer_action {d : Domain} (hd : d.Accepted) (hp : d.modulus.Prime)
    {P : CurvePoint} (hP : P.LiesOn d) (k l : Int) :
    (∃ S, P.mul k = .ok S ∧ S.LiesOn d) ∧
    (0 ≤ k → P.mul k = P.addTimes k.toNat ∧ P.mul k = P.mulNat k.toNat) ∧
    P.mul (-k) = (P.mul k).map CurvePoint.neg ∧
    (∃ K L S, P.mul k = .ok K ∧ P.mul l = .ok L ∧ P.mul (k + l) = .ok S ∧ K.add L = .ok S) ∧
    ∃ L S, P.mul l = .ok L ∧ P.mul (k * l) = .ok S ∧ L.mul k = .ok S := by
  have : Fact d.modulus.Prime := ⟨hp⟩
  obtain ⟨A, rfl⟩ := d.exists_point hd hP
  have hmul : ∀ m : Int, (d.point A).mul m = .ok (d.point (m • A)) :=
    fun m => d.mul_point hd m A
  refine ⟨⟨_, hmul k, d.liesOn_point _⟩, ?_, ?_, ?_, ?_⟩
  · intro hk
    obtain ⟨n, rfl⟩ := Int.eq_ofNat_of_zero_le hk
    refine ⟨?_, CurvePoint.mul_natCast n _⟩
    rw [hmul, Int.toNat_natCast, d.addTimes_point hd, natCast_zsmul]
  · rw [hmul, hmul, map_ok, d.neg_point, neg_zsmul]
  · refine ⟨_, _, _, hmul k, hmul l, hmul (k + l), ?_⟩
    rw [d.add_point hd, add_zsmul]
  · refine ⟨_, _, hmul l, hmul (k * l), ?_⟩
    rw [d.mul_point hd, mul_zsmul]

theorem mul_is_integer_action_sevenPoints :
    ∃ K L S, Domain.sevenPoints.basePoint.mul (-3) = .ok K ∧
      Domain.sevenPoints.basePoint.mul 5 = .ok L ∧
      Domain.sevenPoints.basePoint.mul (-3 + 5) = .ok S ∧ K.add L = .ok S :=
  (mul_is_integer_action (d := .sevenPoints) (by decide) Nat.prime_three (by decide) (-3) 5).2.2.2.1

end SigScript
