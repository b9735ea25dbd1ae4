import Mathlib
import SigScript.Curve.Point
import SigScript.Proofs.Curve.Domain
import SigScript.Proofs.Curve.Weierstrass
import SigScript.Proofs.Residue.SquareRoot

/-!
# Results on the curve

Addition, negation, multiples and decoding give points on the curve when they are given points on
the curve (`hasPoint_add`, `hasPoint_neg`, `hasPoint_mul`, `hasPoint_decode`).  No field is needed:
a slope is only used when its denominator has an inverse, and the third point of a line follows from
the factors of a cubic, over any ring of residues.
-/

namespace SigScript.Curve

variable {E : Curve}

/-! ### The third point of a line -/

section Line

variable {x₁ y₁ x₂ y₂ ℓ : ZMod E.modulus}

/-- The line of slope `ℓ` through `(x₁, y₁)` meets the curve a second time at the abscissa `x₂`: the
cubic that is left of the equation on the line, divided by `X - x₁`, has the root `x₂`. -/
def MeetsAgain (E : Curve) (ℓ x₁ y₁ x₂ : ZMod E.modulus) : Prop :=
  x₂ ^ 2 + x₁ * x₂ + x₁ ^ 2 + E.a = ℓ ^ 2 * (x₂ - x₁) + 2 * ℓ * y₁

/-- The abscissa of the third point is the third root of the cubic. -/
theorem equation_third (h₁ : E.toWeierstrass.Equation x₁ y₁) (h : E.MeetsAgain ℓ x₁ y₁ x₂) :
    E.toWeierstrass.Equation (E.toWeierstrass.addX x₁ x₂ ℓ)
      (E.toWeierstrass.addY x₁ x₂ y₁ ℓ) := by
  rw [equation_iff] at h₁ ⊢
  rw [MeetsAgain] at h
  simp only [toWeierstrass, WeierstrassCurve.Affine.addX, WeierstrassCurve.Affine.addY,
    WeierstrassCurve.Affine.negY, WeierstrassCurve.Affine.negAddY]
  linear_combination h₁ - (ℓ ^ 2 - x₁ - x₂ - x₁) * h

theorem meetsAgain_of_tangent (hℓ : ℓ * (2 * y₁) = 3 * x₁ ^ 2 + E.a) :
    E.MeetsAgain ℓ x₁ y₁ x₁ := by
  rw [MeetsAgain]
  linear_combination -hℓ

/-- The difference of the abscissas cancels because it has an inverse. -/
theorem meetsAgain_of_chord (h₁ : E.toWeierstrass.Equation x₁ y₁)
    (h₂ : E.toWeierstrass.Equation x₂ y₂) (hℓ : ℓ * (x₂ - x₁) = y₂ - y₁)
    (hunit : IsUnit (x₂ - x₁)) : E.MeetsAgain ℓ x₁ y₁ x₂ := by
  rw [equation_iff] at h₁ h₂
  refine hunit.mul_left_cancel ?_
  linear_combination h₁ - h₂ - (ℓ * (x₂ - x₁) + y₁ + y₂) * hℓ

theorem hasPoint_reflectedThird [NeZero E.modulus] (h₁ : E.toWeierstrass.Equation x₁ y₁)
    (h : E.MeetsAgain ℓ x₁ y₁ x₂) :
    E.HasPoint (E.reflectedThird ℓ.val x₁.val y₁.val x₂.val) := by
  rw [reflectedThird_val]
  exact (E.contains_val_iff _ _).2 (equation_third h₁ h)

end Line

/-! ### Addition, negation and multiples -/

@[simp] theorem infinity_add (E : Curve) (P : Coordinates) : E.add .infinity P = .ok P := rfl

@[simp] theorem add_infinity (E : Curve) (P : Coordinates) : E.add P .infinity = .ok P := by
  cases P with
  | infinity => rfl
  | affine x y => rfl

/-- The ways to a sum: an operand is infinity, the line is vertical, or it has a slope. -/
theorem cases_of_add {P Q R : Coordinates} (h : E.add P Q = .ok R) :
    P = .infinity ∧ R = Q ∨ Q = .infinity ∧ R = P ∨ R = .infinity ∨
      ∃ x₁ y₁ x₂ y₂ s, P = .affine x₁ y₁ ∧ Q = .affine x₂ y₂ ∧
        R = E.reflectedThird s x₁ y₁ x₂ ∧
          (x₁ = x₂ ∧ y₁ = y₂ ∧ E.tangentSlope x₁ y₁ = .ok s ∨
            x₁ ≠ x₂ ∧ E.chordSlope x₁ y₁ x₂ y₂ = .ok s) := by
  cases P with
  | infinity =>
    cases h
    exact .inl ⟨rfl, rfl⟩
  | affine x₁ y₁ =>
    cases Q with
    | infinity =>
      cases h
      exact .inr (.inl ⟨rfl, rfl⟩)
    | affine x₂ y₂ =>
      refine .inr (.inr ?_)
      rw [add] at h
      split at h
      · rename_i hx
        split at h
        · cases h
          exact .inl rfl
        · rename_i hy
          obtain ⟨s, hs, hR⟩ := bind_eq_ok_iff.1 h
          rw [pure_eq_ok, Except.ok.injEq] at hR
          simp only [not_or, not_not] at hy
          exact .inr ⟨x₁, y₁, x₂, y₂, s, rfl, rfl, hR.symm, .inl ⟨hx, hy.1, hs⟩⟩
      · rename_i hx
        obtain ⟨s, hs, hR⟩ := bind_eq_ok_iff.1 h
        rw [pure_eq_ok, Except.ok.injEq] at hR
        exact .inr ⟨x₁, y₁, x₂, y₂, s, rfl, rfl, hR.symm, .inr ⟨hx, hs⟩⟩

theorem hasPoint_add {P Q R : Coordinates} (hP : E.HasPoint P) (hQ : E.HasPoint Q)
    (h : E.add P Q = .ok R) : E.HasPoint R := by
  rcases cases_of_add h with ⟨-, rfl⟩ | ⟨-, rfl⟩ | rfl | ⟨x₁, y₁, x₂, y₂, s, rfl, rfl, rfl, hs⟩
  · exact hQ
  · exact hP
  · trivial
  · -- Both operands are affine here, so they represent solutions of the equation.
    have : NeZero E.modulus := ⟨by have := hP.1; omega⟩
    obtain h | ⟨x₁, y₁, hP', h₁⟩ := exists_of_hasPoint hP
    · cases h
    obtain h | ⟨x₂, y₂, hQ', h₂⟩ := exists_of_hasPoint hQ
    · cases h
    cases hP'
    cases hQ'
    rcases hs with ⟨hx, -, hs⟩ | ⟨-, hs⟩
    · obtain ⟨ℓ, rfl, hℓ⟩ := E.exists_of_tangentSlope hs
      rw [← hx]
      exact hasPoint_reflectedThird h₁ (meetsAgain_of_tangent hℓ)
    · obtain ⟨ℓ, rfl, hℓ, hunit⟩ := E.exists_of_chordSlope hs
      exact hasPoint_reflectedThird h₁ (meetsAgain_of_chord h₁ h₂ hℓ hunit)

theorem hasPoint_neg {P : Coordinates} (hP : E.HasPoint P) : E.HasPoint (E.neg P) := by
  obtain rfl | ⟨x, y, rfl, h⟩ := exists_of_hasPoint hP
  · exact hP
  · have : NeZero E.modulus := ⟨by have := hP.1; omega⟩
    rw [neg_val]
    exact (E.contains_val_iff _ _).2 ((WeierstrassCurve.Affine.equation_neg _ _).2 h)

theorem hasPoint_mulStep {P acc R : Coordinates} {bit : Bool} (hP : E.HasPoint P)
    (hacc : E.HasPoint acc) (h : E.mulStep P acc bit = .ok R) : E.HasPoint R := by
  obtain ⟨twice, htwice, hR⟩ := bind_eq_ok_iff.1 h
  have hpoint := hasPoint_add hacc hacc htwice
  cases bit with
  | false =>
    cases hR
    exact hpoint
  | true => exact hasPoint_add hpoint hP hR

theorem hasPoint_mul {P R : Coordinates} {k : Nat} (hP : E.HasPoint P) (h : E.mul k P = .ok R) :
    E.HasPoint R :=
  foldlM_keeps (fun _ _ _ hacc hstep => hasPoint_mulStep hP hacc hstep)
    (show E.HasPoint .infinity from trivial) h

/-! ### Decoding -/

theorem lt_of_readCoordinate {octets : Bytes} {x : Nat} (h : E.readCoordinate octets = .ok x) :
    x < E.modulus := by
  obtain ⟨u, hu, hx⟩ := bind_eq_ok_iff.1 h
  unfold checkReduced at hu
  cases hx
  split at hu
  · assumption
  · cases hu

/-- The ordinate that is computed for an abscissa is a root of the right-hand side: the one found or
its negative. -/
theorem contains_of_liftX {octet : UInt8} {odd : Bool} {x y : Nat} (hx : x < E.modulus)
    (h : E.liftX octet odd x = .ok y) : E.Contains x y := by
  obtain ⟨root, hroot, hy⟩ := bind_eq_ok_iff.1 h
  have hlt := Residue.lt_of_sqrt hroot
  have hsq : E.toWeierstrass.Equation x root := by
    rw [equation_iff, Residue.sq_of_sqrt hroot, rhs, ZMod.natCast_mod]
    push_cast
    ring
  split at hy
  · cases hy
  · split at hy
    · cases hy
      exact ⟨hx, hlt, (E.satisfies_iff _ _).2 hsq⟩
    · cases hy
      refine ⟨hx, Nat.mod_lt _ (by omega), (E.satisfies_iff _ _).2 ?_⟩
      rw [equation_iff] at hsq ⊢
      rw [ZMod.natCast_mod, Nat.cast_sub hlt.le, ZMod.natCast_self, zero_sub, neg_sq, hsq]

theorem hasPoint_decodeCompressed {octet : UInt8} {rest : Bytes} {P : Coordinates}
    (h : E.decodeCompressed octet rest = .ok P) : E.HasPoint P := by
  unfold decodeCompressed at h
  split at h
  · obtain ⟨x, hx, h⟩ := bind_eq_ok_iff.1 h
    obtain ⟨y, hy, hP⟩ := bind_eq_ok_iff.1 h
    cases hP
    exact contains_of_liftX (lt_of_readCoordinate hx) hy
  · cases h

theorem hasPoint_decodeUncompressed {octet : UInt8} {rest : Bytes} {P : Coordinates}
    (h : E.decodeUncompressed octet rest = .ok P) : E.HasPoint P := by
  unfold decodeUncompressed at h
  split at h
  · obtain ⟨x, hx, h⟩ := bind_eq_ok_iff.1 h
    obtain ⟨y, hy, h⟩ := bind_eq_ok_iff.1 h
    split at h
    · cases h
      exact ⟨lt_of_readCoordinate hx, lt_of_readCoordinate hy, by assumption⟩
    · cases h
  · cases h

theorem hasPoint_decode {octets : Bytes} {P : Coordinates} (h : E.decode octets = .ok P) :
    E.HasPoint P := by
  unfold decode at h
  split at h
  · cases h
    trivial
  · split at h
    · cases h
    · split at h
      · split at h
        · exact hasPoint_decodeCompressed h
        · split at h
          · exact hasPoint_decodeUncompressed h
          · cases h
      · cases h

end SigScript.Curve

/-! ### Points of a domain -/

namespace SigScript.CurvePoint

/-- The point belongs to the domain and is on its curve. -/
def LiesOn (P : CurvePoint) (d : Domain) : Prop := P.domain = d ∧ P.OnCurve

instance (P : CurvePoint) (d : Domain) : Decidable (P.LiesOn d) :=
  inferInstanceAs (Decidable (_ ∧ _))

variable {d : Domain} {P Q R : CurvePoint}

theorem liesOn_infinity (d : Domain) : (infinity d).LiesOn d := ⟨rfl, trivial⟩

theorem liesOn_basePoint (hd : d.Accepted) : d.basePoint.LiesOn d := ⟨rfl, hd.hasPoint_generator⟩

theorem liesOn_create {x y : Nat} (h : create d x y = .ok R) : R.LiesOn d := by
  unfold create at h
  split at h
  · cases h
    exact ⟨rfl, by assumption⟩
  · cases h

theorem liesOn_ofOctets {octets : Bytes} (h : ofOctets d octets = .ok R) : R.LiesOn d := by
  obtain ⟨C, hC, rfl⟩ := map_eq_ok_iff.1 h
  exact ⟨rfl, Curve.hasPoint_decode hC⟩

theorem checkDomain_eq_ok_iff : checkDomain d P = .ok () ↔ P.domain = d := by
  unfold checkDomain
  split
  · exact iff_of_true rfl (by assumption)
  · exact iff_of_false (by simp) (by assumption)

theorem LiesOn.add (hP : P.LiesOn d) (hQ : Q.LiesOn d) (h : P.add Q = .ok R) : R.LiesOn d := by
  obtain ⟨_, -, h⟩ := bind_eq_ok_iff.1 h
  obtain ⟨C, hC, hR⟩ := bind_eq_ok_iff.1 h
  cases hR
  refine ⟨hP.1, Curve.hasPoint_add hP.2 ?_ hC⟩
  rw [hP.1, ← hQ.1]
  exact hQ.2

theorem LiesOn.neg (hP : P.LiesOn d) : P.neg.LiesOn d := ⟨hP.1, Curve.hasPoint_neg hP.2⟩

theorem LiesOn.mulNat {k : Nat} (hP : P.LiesOn d) (h : P.mulNat k = .ok R) : R.LiesOn d := by
  obtain ⟨C, hC, rfl⟩ := map_eq_ok_iff.1 h
  exact ⟨hP.1, Curve.hasPoint_mul hP.2 hC⟩

theorem LiesOn.mul {k : Int} (hP : P.LiesOn d) (h : P.mul k = .ok R) : R.LiesOn d := by
  unfold CurvePoint.mul at h
  split at h
  · obtain ⟨Q, hQ, rfl⟩ := map_eq_ok_iff.1 h
    exact (hP.mulNat hQ).neg
  · exact hP.mulNat h

end SigScript.CurvePoint
