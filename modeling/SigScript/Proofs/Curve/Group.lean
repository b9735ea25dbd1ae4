import Mathlib
import SigScript.Proofs.Curve.Closure

/-!
# The group of points

Modulo an odd prime an accepted domain is an elliptic curve over a field (`isElliptic`), its points
are those of that curve (`exists_point`), and addition and negation are those of its group
(`add_point`, `neg_point`).  The laws of a group follow (`add_is_group_law`).
-/

namespace SigScript

namespace Curve

open WeierstrassCurve.Affine

variable {E : Curve}

/-- The coordinates of a point of the Weierstrass curve. -/
def ofPoint : E.toWeierstrass.Point → Coordinates
  | .zero => .infinity
  | .some x y _ => .affine x.val y.val

@[simp] theorem ofPoint_zero : ofPoint (0 : E.toWeierstrass.Point) = .infinity := rfl

@[simp] theorem ofPoint_some {x y : ZMod E.modulus} (h : E.toWeierstrass.Nonsingular x y) :
    ofPoint (.some x y h) = .affine x.val y.val := rfl

theorem ofPoint_eq_infinity_iff {A : E.toWeierstrass.Point} : ofPoint A = .infinity ↔ A = 0 := by
  cases A with
  | zero => exact iff_of_true rfl rfl
  | some x y h => exact iff_of_false (by simp) (Point.some_ne_zero h)

theorem hasPoint_ofPoint [NeZero E.modulus] (A : E.toWeierstrass.Point) :
    E.HasPoint (ofPoint A) := by
  cases A with
  | zero => trivial
  | some x y h => exact (E.contains_val_iff x y).2 h.1

section Prime

variable [Fact E.modulus.Prime]

theorem exists_ofPoint [E.toWeierstrass.IsElliptic] {P : Coordinates} (h : E.HasPoint P) :
    ∃ A : E.toWeierstrass.Point, P = ofPoint A := by
  obtain rfl | ⟨x, y, rfl, hxy⟩ := exists_of_hasPoint h
  · exact ⟨0, rfl⟩
  · exact ⟨.some x y (equation_iff_nonsingular.1 hxy), rfl⟩

theorem neg_ofPoint (A : E.toWeierstrass.Point) : E.neg (ofPoint A) = ofPoint (-A) := by
  cases A with
  | zero => rfl
  | some x y h => exact E.neg_val x y

/-! ### Chords -/

theorem chordSlope_val {x₁ x₂ : ZMod E.modulus} (y₁ y₂ : ZMod E.modulus) (hx : x₁ ≠ x₂) :
    E.chordSlope x₁.val y₁.val x₂.val y₂.val = .ok (E.toWeierstrass.slope x₁ x₂ y₁ y₂).val := by
  have hne : x₂ - x₁ ≠ 0 := sub_ne_zero.2 hx.symm
  obtain ⟨s, hs⟩ : ∃ s, E.chordSlope x₁.val y₁.val x₂.val y₂.val = .ok s := by
    rw [chordSlope, subMod_val, Residue.inverse_of_ne_zero (by simpa using hne)]
    exact ⟨_, rfl⟩
  obtain ⟨ℓ, rfl, hℓ, -⟩ := E.exists_of_chordSlope hs
  rw [hs, slope_of_X_ne hx, ← neg_sub y₂, ← neg_sub x₂, neg_div_neg_eq,
    ← hℓ, mul_div_cancel_right₀ ℓ hne]

theorem add_ofPoint_of_X_ne {x₁ x₂ y₁ y₂ : ZMod E.modulus} (hx : x₁ ≠ x₂)
    (h₁ : E.toWeierstrass.Nonsingular x₁ y₁) (h₂ : E.toWeierstrass.Nonsingular x₂ y₂) :
    E.add (.affine x₁.val y₁.val) (.affine x₂.val y₂.val) =
      .ok (ofPoint (Point.some x₁ y₁ h₁ + Point.some x₂ y₂ h₂)) := by
  have hval : x₁.val ≠ x₂.val := fun h => hx (ZMod.val_injective _ h)
  rw [add, if_neg hval, chordSlope_val y₁ y₂ hx, ok_bind, reflectedThird_val,
    Point.add_of_X_ne hx, ofPoint_some, pure_eq_ok]

variable [NeZero (2 : ZMod E.modulus)]

/-! ### Tangents -/

theorem eq_negY_iff (x y : ZMod E.modulus) : y = E.toWeierstrass.negY x y ↔ y = 0 := by
  have hneg : E.toWeierstrass.negY x y = -y := by
    simp [toWeierstrass, negY]
  rw [hneg, eq_neg_iff_add_eq_zero, ← two_mul]
  simp [two_ne_zero]

theorem tangentSlope_val (x : ZMod E.modulus) {y : ZMod E.modulus} (hy : y ≠ 0) :
    E.tangentSlope x.val y.val = .ok (E.toWeierstrass.slope x x y y).val := by
  have hne : 2 * y ≠ 0 := mul_ne_zero two_ne_zero hy
  obtain ⟨s, hs⟩ : ∃ s, E.tangentSlope x.val y.val = .ok s := by
    rw [tangentSlope, Residue.inverse_of_ne_zero (by simpa using hne)]
    exact ⟨_, rfl⟩
  obtain ⟨ℓ, rfl, hℓ⟩ := E.exists_of_tangentSlope hs
  have hslope : E.toWeierstrass.slope x x y y = (3 * x ^ 2 + E.a) / (2 * y) := by
    rw [slope_of_Y_ne rfl (mt (eq_negY_iff x y).1 hy)]
    simp only [toWeierstrass, negY]
    ring
  rw [hs, hslope, ← hℓ, mul_div_cancel_right₀ ℓ hne]

theorem add_ofPoint_of_X_eq {x y₁ y₂ : ZMod E.modulus} (h₁ : E.toWeierstrass.Nonsingular x y₁)
    (h₂ : E.toWeierstrass.Nonsingular x y₂) :
    E.add (.affine x.val y₁.val) (.affine x.val y₂.val) =
      .ok (ofPoint (Point.some x y₁ h₁ + Point.some x y₂ h₂)) := by
  rw [add, if_pos rfl]
  by_cases hy : y₁ = E.toWeierstrass.negY x y₂
  · -- Opposite points: their ordinates differ unless both are 0.
    have hopp : y₁.val ≠ y₂.val ∨ y₁.val = 0 := by
      by_cases heq : y₁ = y₂
      · subst heq
        exact .inr ((ZMod.val_eq_zero y₁).2 ((eq_negY_iff x y₁).1 hy))
      · exact .inl fun h => heq (ZMod.val_injective _ h)
    rw [if_pos hopp, Point.add_of_Y_eq rfl hy, ofPoint_zero]
  · -- The points are equal and their tangent is not vertical.
    have heq : y₁ = y₂ := Y_eq_of_Y_ne h₁.1 h₂.1 rfl hy
    subst heq
    have hne : y₁ ≠ 0 := mt (eq_negY_iff x y₁).2 hy
    have hval : ¬(y₁.val ≠ y₁.val ∨ y₁.val = 0) := by simpa using hne
    rw [if_neg hval, tangentSlope_val x hne, ok_bind, reflectedThird_val,
      Point.add_self_of_Y_ne hy, ofPoint_some, pure_eq_ok]

/-- Addition never fails, and it is the addition of the group. -/
theorem add_ofPoint (A B : E.toWeierstrass.Point) :
    E.add (ofPoint A) (ofPoint B) = .ok (ofPoint (A + B)) := by
  cases A with
  | zero =>
    rw [← Point.zero_def, zero_add, ofPoint_zero, infinity_add]
  | some x₁ y₁ h₁ =>
    cases B with
    | zero =>
      rw [← Point.zero_def, add_zero, ofPoint_zero, add_infinity]
    | some x₂ y₂ h₂ =>
      by_cases hx : x₁ = x₂
      · subst hx
        exact add_ofPoint_of_X_eq h₁ h₂
      · exact add_ofPoint_of_X_ne hx h₁ h₂

end Prime

end Curve

/-! ### Points with a domain -/

namespace CurvePoint

theorem add_mk (d : Domain) (C C' : Coordinates) :
    add ⟨d, C⟩ ⟨d, C'⟩ = (d.toCurve.add C C').map (CurvePoint.mk d) := by
  rw [add, checkDomain, if_pos rfl, ok_bind]
  cases d.toCurve.add C C' <;> rfl

theorem add_of_domain_ne {P Q : CurvePoint} (h : P.domain ≠ Q.domain) :
    P.add Q = .error (.domainMismatch P.domain.name Q.domain.name) := by
  rw [add, checkDomain, if_neg h.symm, error_bind]

end CurvePoint

/-! ### Domains of prime modulus -/

namespace Domain

variable {d : Domain}

/-- The point of a domain that represents a point of the group. -/
def point (d : Domain) (A : d.toWeierstrass.Point) : CurvePoint := ⟨d, Curve.ofPoint A⟩

theorem point_zero (d : Domain) : d.point 0 = .infinity d := rfl

theorem checkDomain_point (A : d.toWeierstrass.Point) :
    CurvePoint.checkDomain d (d.point A) = .ok () := CurvePoint.checkDomain_eq_ok_iff.2 rfl

variable [Fact d.modulus.Prime]

theorem Accepted.two_ne_zero (hd : d.Accepted) : (2 : ZMod d.modulus) ≠ 0 := by
  intro h
  have hdvd : d.modulus ∣ 2 := (ZMod.natCast_eq_zero_iff 2 d.modulus).1 (by exact_mod_cast h)
  have hle := Nat.le_of_dvd two_pos hdvd
  have hthree := hd.three_le
  omega

/-- The discriminant is `-16` times the number that the creation of a domain refuses to be 0. -/
theorem Accepted.isElliptic (hd : d.Accepted) : d.toWeierstrass.IsElliptic := by
  have hΔ : d.toWeierstrass.Δ =
      -2 ^ 4 * ((4 * (d.a * d.a * d.a) + 27 * (d.b * d.b) : Nat) : ZMod d.modulus) := by
    simp only [Curve.toWeierstrass, WeierstrassCurve.Δ, WeierstrassCurve.b₂, WeierstrassCurve.b₄,
      WeierstrassCurve.b₆, WeierstrassCurve.b₈]
    push_cast
    ring
  have hcubic : ((4 * (d.a * d.a * d.a) + 27 * (d.b * d.b) : Nat) : ZMod d.modulus) ≠ 0 := by
    rw [Ne, ZMod.natCast_eq_zero_iff, Nat.dvd_iff_mod_eq_zero]
    exact hd.not_singular
  rw [WeierstrassCurve.isElliptic_iff, hΔ]
  exact (mul_ne_zero (neg_ne_zero.2 (pow_ne_zero 4 hd.two_ne_zero)) hcubic).isUnit

theorem liesOn_point (A : d.toWeierstrass.Point) : (d.point A).LiesOn d :=
  ⟨rfl, Curve.hasPoint_ofPoint A⟩

/-- The points of an accepted domain are those of the group. -/
theorem exists_point (hd : d.Accepted) {P : CurvePoint} (hP : P.LiesOn d) :
    ∃ A : d.toWeierstrass.Point, P = d.point A := by
  have := hd.isElliptic
  obtain ⟨domain, coordinates⟩ := P
  obtain ⟨rfl, hon⟩ := hP
  obtain ⟨A, hA⟩ := Curve.exists_ofPoint hon
  exact ⟨A, congrArg (CurvePoint.mk _) hA⟩

theorem add_point (hd : d.Accepted) (A B : d.toWeierstrass.Point) :
    (d.point A).add (d.point B) = .ok (d.point (A + B)) := by
  have : NeZero (2 : ZMod d.modulus) := ⟨hd.two_ne_zero⟩
  rw [point, point, CurvePoint.add_mk, Curve.add_ofPoint, map_ok, point]

theorem neg_point (A : d.toWeierstrass.Point) : (d.point A).neg = d.point (-A) :=
  congrArg (CurvePoint.mk d) (Curve.neg_ofPoint A)

end Domain

/-- Addition is total and makes the points of an accepted domain an abelian group when the modulus
is prime.  Points of different domains are never added. -/
theorem add_is_group_law {d : Domain} (hd : d.Accepted) (hp : d.modulus.Prime) :
    (∀ P Q : CurvePoint, P.LiesOn d → Q.LiesOn d →
      ∃ S, P.add Q = .ok S ∧ S.LiesOn d ∧ Q.add P = .ok S) ∧
    (∀ P Q R : CurvePoint, P.LiesOn d → Q.LiesOn d → R.LiesOn d →
      ∃ S T U, P.add Q = .ok S ∧ Q.add R = .ok T ∧ S.add R = .ok U ∧ P.add T = .ok U) ∧
    (∀ P : CurvePoint, P.LiesOn d →
      P.add (.infinity d) = .ok P ∧ (CurvePoint.infinity d).add P = .ok P ∧
      P.add P.neg = .ok (.infinity d) ∧ P.double = P.add P) ∧
    ∀ P Q : CurvePoint, P.domain ≠ Q.domain →
      P.add Q = .error (.domainMismatch P.domain.name Q.domain.name) := by
  have : Fact d.modulus.Prime := ⟨hp⟩
  refine ⟨?_, ?_, ?_, fun P Q h => CurvePoint.add_of_domain_ne h⟩
  · intro P Q hP hQ
    obtain ⟨A, rfl⟩ := d.exists_point hd hP
    obtain ⟨B, rfl⟩ := d.exists_point hd hQ
    refine ⟨d.point (A + B), d.add_point hd A B, d.liesOn_point _, ?_⟩
    rw [add_comm A B]
    exact d.add_point hd B A
  · intro P Q R hP hQ hR
    obtain ⟨A, rfl⟩ := d.exists_point hd hP
    obtain ⟨B, rfl⟩ := d.exists_point hd hQ
    obtain ⟨C, rfl⟩ := d.exists_point hd hR
    refine ⟨d.point (A + B), d.point (B + C), d.point (A + B + C), d.add_point hd A B,
      d.add_point hd B C, d.add_point hd (A + B) C, ?_⟩
    rw [add_assoc A B C]
    exact d.add_point hd A (B + C)
  · intro P hP
    obtain ⟨A, rfl⟩ := d.exists_point hd hP
    refine ⟨?_, ?_, ?_, rfl⟩
    · rw [← d.point_zero, d.add_point hd, add_zero]
    · rw [← d.point_zero, d.add_point hd, zero_add]
    · rw [d.neg_point, d.add_point hd, add_neg_cancel, d.point_zero]

theorem add_is_group_law_sevenPoints :
    ∃ S T U, Domain.sevenPoints.basePoint.add Domain.sevenPoints.basePoint = .ok S ∧
      Domain.sevenPoints.basePoint.add ⟨Domain.sevenPoints, .affine 1 1⟩ = .ok T ∧
      S.add ⟨Domain.sevenPoints, .affine 1 1⟩ = .ok U ∧
      Domain.sevenPoints.basePoint.add T = .ok U :=
  (add_is_group_law (d := .sevenPoints) (by decide) Nat.prime_three).2.1 _ _ _
    (by decide) (by decide) (by decide)

end SigScript
