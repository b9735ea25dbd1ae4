import Mathlib
import SigScript.Curve.Point
import SigScript.Proofs.Failure
import SigScript.Proofs.Residue.Inverse

/-!
# Curves over the ring of residues

A curve is a Weierstrass curve over `ZMod p` (`Curve.toWeierstrass`).  The coordinates on it are the
representatives `x.val`, `y.val` of the residues that satisfy its equation (`contains_val_iff`), and
the arithmetic on representatives is the arithmetic of residues (`subMod_val`,
`reflectedThird_val`).  The modulus need not be prime.
-/

namespace SigScript

/-! ### Differences -/

theorem subMod_lt {a p : Nat} (b : Nat) (ha : a < p) : subMod a b p < p := by
  unfold subMod
  split
  · exact (Nat.sub_le a b).trans_lt ha
  · omega

theorem subMod_cast {a b p : Nat} (hb : b < p) : (subMod a b p : ZMod p) = a - b := by
  unfold subMod
  split
  · rw [Nat.cast_sub (by assumption)]
  · have hle : b - a ≤ p := (Nat.sub_le b a).trans hb.le
    rw [Nat.cast_sub hle, Nat.cast_sub (by omega), ZMod.natCast_self]
    ring

/-- A number below the modulus is the representative of its residue. -/
theorem eq_val_of_cast {p n : Nat} {z : ZMod p} (hn : n < p) (h : (n : ZMod p) = z) : n = z.val := by
  rw [← h, ZMod.val_natCast_of_lt hn]

theorem mod_eq_val {p n : Nat} [NeZero p] {z : ZMod p} (h : (n : ZMod p) = z) : n % p = z.val :=
  eq_val_of_cast (Nat.mod_lt n (NeZero.pos p)) ((ZMod.natCast_mod n p).trans h)

theorem subMod_val {p : Nat} [NeZero p] (a b : ZMod p) : subMod a.val b.val p = (a - b).val := by
  refine eq_val_of_cast (subMod_lt _ (ZMod.val_lt a)) ?_
  rw [subMod_cast (ZMod.val_lt b), ZMod.natCast_zmod_val, ZMod.natCast_zmod_val]

namespace Curve

variable (E : Curve)

/-- The curve over the residues modulo `p`. -/
def toWeierstrass : WeierstrassCurve.Affine (ZMod E.modulus) := ⟨0, 0, 0, E.a, E.b⟩

/-! ### The equation -/

theorem equation_iff (x y : ZMod E.modulus) :
    E.toWeierstrass.Equation x y ↔ y ^ 2 = x ^ 3 + E.a * x + E.b := by
  rw [WeierstrassCurve.Affine.equation_iff]
  simp [toWeierstrass]

theorem satisfies_iff (x y : Nat) : E.Satisfies x y ↔ E.toWeierstrass.Equation x y := by
  rw [equation_iff, Satisfies, rhs, ← ZMod.natCast_eq_natCast_iff']
  push_cast
  rw [pow_two, pow_succ, pow_two]

variable {E} in
/-- Coordinates on the curve are infinity or represent a solution of the equation. -/
theorem exists_of_hasPoint {P : Coordinates} (h : E.HasPoint P) :
    P = .infinity ∨ ∃ x y : ZMod E.modulus, P = .affine x.val y.val ∧
      E.toWeierstrass.Equation x y := by
  cases P with
  | infinity => exact .inl rfl
  | affine x y =>
    have hx : x = (x : ZMod E.modulus).val := (ZMod.val_natCast_of_lt h.1).symm
    have hy : y = (y : ZMod E.modulus).val := (ZMod.val_natCast_of_lt h.2.1).symm
    exact .inr ⟨x, y, by rw [← hx, ← hy], (E.satisfies_iff x y).1 h.2.2⟩

variable [NeZero E.modulus]

theorem contains_val_iff (x y : ZMod E.modulus) :
    E.Contains x.val y.val ↔ E.toWeierstrass.Equation x y := by
  rw [Contains, satisfies_iff, ZMod.natCast_zmod_val, ZMod.natCast_zmod_val]
  exact ⟨fun h => h.2.2, fun h => ⟨ZMod.val_lt x, ZMod.val_lt y, h⟩⟩

/-! ### Negation, slopes and the third point of a line -/

theorem neg_val (x y : ZMod E.modulus) :
    E.neg (.affine x.val y.val) = .affine x.val (E.toWeierstrass.negY x y).val := by
  have h : subMod 0 y.val E.modulus % E.modulus = (-y).val := by
    refine mod_eq_val ?_
    rw [subMod_cast (ZMod.val_lt y), ZMod.natCast_zmod_val, Nat.cast_zero, zero_sub]
  simp only [neg, h, toWeierstrass, WeierstrassCurve.Affine.negY, zero_mul, sub_zero]

/-- The point that addition computes from a slope. -/
theorem reflectedThird_val (ℓ x₁ y₁ x₂ : ZMod E.modulus) :
    E.reflectedThird ℓ.val x₁.val y₁.val x₂.val =
      .affine (E.toWeierstrass.addX x₁ x₂ ℓ).val (E.toWeierstrass.addY x₁ x₂ y₁ ℓ).val := by
  have hx : subMod (ℓ.val * ℓ.val % E.modulus) ((x₁.val + x₂.val) % E.modulus) E.modulus =
      (E.toWeierstrass.addX x₁ x₂ ℓ).val := by
    rw [← ZMod.val_mul, ← ZMod.val_add, subMod_val]
    congr 1
    simp only [toWeierstrass, WeierstrassCurve.Affine.addX]
    ring
  have hy : subMod (ℓ.val * subMod x₁.val (E.toWeierstrass.addX x₁ x₂ ℓ).val E.modulus % E.modulus)
      y₁.val E.modulus = (E.toWeierstrass.addY x₁ x₂ y₁ ℓ).val := by
    rw [subMod_val, ← ZMod.val_mul, subMod_val]
    congr 1
    simp only [toWeierstrass, WeierstrassCurve.Affine.addY, WeierstrassCurve.Affine.negY,
      WeierstrassCurve.Affine.negAddY]
    ring
  simp only [reflectedThird, hx, hy]

/-- A tangent's slope times twice the ordinate. -/
theorem exists_of_tangentSlope {x y : ZMod E.modulus} {s : Nat}
    (h : E.tangentSlope x.val y.val = .ok s) :
    ∃ ℓ : ZMod E.modulus, s = ℓ.val ∧ ℓ * (2 * y) = 3 * x ^ 2 + E.a := by
  obtain ⟨i, hi, hs⟩ := bind_eq_ok_iff.1 h
  have hinv := Residue.mul_of_inverse hi
  rw [pure_eq_ok, Except.ok.injEq] at hs
  push_cast [ZMod.natCast_mod, ZMod.natCast_zmod_val] at hinv
  refine ⟨(3 * x ^ 2 + E.a) * i, ?_, ?_⟩
  · rw [← hs]
    refine mod_eq_val ?_
    push_cast [ZMod.natCast_mod, ZMod.natCast_zmod_val]
    ring
  · linear_combination (3 * x ^ 2 + E.a) * hinv

/-- A chord's slope times the difference of the abscissas, which has an inverse. -/
theorem exists_of_chordSlope {x₁ y₁ x₂ y₂ : ZMod E.modulus} {s : Nat}
    (h : E.chordSlope x₁.val y₁.val x₂.val y₂.val = .ok s) :
    ∃ ℓ : ZMod E.modulus, s = ℓ.val ∧ ℓ * (x₂ - x₁) = y₂ - y₁ ∧ IsUnit (x₂ - x₁) := by
  obtain ⟨i, hi, hs⟩ := bind_eq_ok_iff.1 h
  have hinv := Residue.mul_of_inverse hi
  rw [pure_eq_ok, Except.ok.injEq] at hs
  rw [subMod_val, Int.cast_natCast, ZMod.natCast_zmod_val] at hinv
  refine ⟨(y₂ - y₁) * i, ?_, ?_, IsUnit.of_mul_eq_one _ hinv⟩
  · rw [← hs]
    refine mod_eq_val ?_
    rw [subMod_val, Nat.cast_mul, ZMod.natCast_zmod_val]
  · linear_combination (y₂ - y₁) * hinv

end Curve

end SigScript
