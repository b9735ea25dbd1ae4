import Mathlib
import SigScript.Residue.Inverse

/-!
# The Euclidean algorithm gives inverses

`inverse a p` is the only number below `p` whose product with `a` is 1 modulo `p`
(`inverse_eq_ok_iff`), and it exists when `a` and `p` have no common factor.  Modulo a prime number
it is the inverse of the field `ZMod p` (`inverse_of_ne_zero`).  Only one of the two coefficients of
the divisor is computed; whichever coefficients an extended greatest common divisor comes with, they
lead to the same inverse (`inverseBy_eq_inverse`).
-/

namespace SigScript.Residue

/-- The loop keeps both remainders congruent to their coefficients times `a`. -/
theorem bezout_cast {m r s : Nat} {x y : Int} {a : ZMod m} (hr : (r : ZMod m) = x * a)
    (hs : (s : ZMod m) = y * a) :
    ((bezout r s x y).1 : ZMod m) = (bezout r s x y).2 * a := by
  fun_induction bezout r s x y with
  | case1 r x y => exact hr
  | case2 r s x y h ih =>
    refine ih hs ?_
    -- the next remainder is the same combination of `r` and `s` as its coefficient
    have hdiv : ((s * (r / s) + r % s : Nat) : ZMod m) = r := by rw [Nat.div_add_mod]
    rw [Nat.cast_add, Nat.cast_mul] at hdiv
    rw [eq_sub_of_add_eq' hdiv, hr, hs, Int.cast_sub, Int.cast_mul, Int.cast_natCast]
    ring

theorem toNat_emod_cast (a : Int) {p : Nat} (hp : p ≠ 0) : (((a % p).toNat : Nat) : ZMod p) = a := by
  have h : (((a % p).toNat : Nat) : Int) = a % p :=
    Int.toNat_of_nonneg (Int.emod_nonneg a (by exact_mod_cast hp))
  rw [← Int.cast_natCast, h, ZMod.intCast_mod]

/-- The coefficient that the Euclidean algorithm finds for `a` multiplies it to the divisor. -/
theorem bezout_mul (a : Int) {p : Nat} (hp : p ≠ 0) :
    (((bezout (a % p).toNat p 1 0).1 : Nat) : ZMod p) = (bezout (a % p).toNat p 1 0).2 * a := by
  apply bezout_cast
  · rw [toNat_emod_cast a hp, Int.cast_one, one_mul]
  · rw [ZMod.natCast_self, Int.cast_zero, zero_mul]

theorem coprime_of_mul_eq_one {a : Int} {p x : Nat} (hp : p ≠ 0) (h : (a : ZMod p) * x = 1) :
    (a % p).toNat.gcd p = 1 := by
  rw [← toNat_emod_cast a hp] at h
  exact (ZMod.isUnit_iff_coprime _ _).1 (IsUnit.of_mul_eq_one _ h)

/-- Numbers without a common factor with the modulus have an inverse. -/
theorem inverse_of_coprime {a : Int} {p : Nat} (hp : 2 ≤ p) (h : (a % p).toNat.gcd p = 1) :
    inverse a p = .ok ((bezout (a % p).toNat p 1 0).2 % p).toNat := by
  rw [inverse, if_neg (by omega)]
  simp only [bezout_fst, h, if_true]

/-- Numbers that share a factor with the modulus have none. -/
theorem inverse_of_not_coprime {a : Int} {p : Nat} (hp : 2 ≤ p) (h : (a % p).toNat.gcd p ≠ 1) :
    inverse a p = .error (.notInvertible a p) := by
  rw [inverse, if_neg (by omega)]
  simp only [bezout_fst, if_neg h]

theorem gcd_toNat_emod (a : Int) {p : Nat} (hp : p ≠ 0) : (a % p).toNat.gcd p = a.gcd p := by
  have hnonneg : 0 ≤ a % p := Int.emod_nonneg a (by exact_mod_cast hp)
  rw [← Int.gcd_emod a p, ← Int.gcd_natCast_natCast, Int.toNat_of_nonneg hnonneg]

theorem gcd_of_inverse {a : Int} {p x : Nat} (h : inverse a p = .ok x) :
    2 ≤ p ∧ (a % p).toNat.gcd p = 1 := by
  unfold inverse at h
  split at h
  · cases h
  · simp only [bezout_fst] at h
    split at h
    · exact ⟨by omega, by assumption⟩
    · cases h

theorem lt_of_inverse {a : Int} {p x : Nat} (h : inverse a p = .ok x) : x < p := by
  obtain ⟨hp, hgcd⟩ := gcd_of_inverse h
  rw [inverse_of_coprime hp hgcd, Except.ok.injEq] at h
  have := Int.emod_lt_of_pos (bezout (a % p).toNat p 1 0).2 (show (0 : Int) < p by omega)
  omega

theorem mul_of_inverse {a : Int} {p x : Nat} (h : inverse a p = .ok x) : (a : ZMod p) * x = 1 := by
  obtain ⟨hp, hgcd⟩ := gcd_of_inverse h
  have hmul := bezout_mul a (show p ≠ 0 by omega)
  rw [bezout_fst, hgcd, Nat.cast_one] at hmul
  rw [inverse_of_coprime hp hgcd, Except.ok.injEq] at h
  rw [← h, toNat_emod_cast _ (by omega), mul_comm, ← hmul]

/-- The inverse is the only number below the modulus whose product with `a` is 1. -/
theorem inverse_eq_ok_iff {a : Int} {p x : Nat} :
    inverse a p = .ok x ↔ 2 ≤ p ∧ x < p ∧ (a : ZMod p) * x = 1 := by
  constructor
  · intro h
    exact ⟨(gcd_of_inverse h).1, lt_of_inverse h, mul_of_inverse h⟩
  · rintro ⟨hp, hx, hmul⟩
    have hok := inverse_of_coprime hp (coprime_of_mul_eq_one (by omega) hmul)
    have hmul' := mul_of_inverse hok
    rw [hok, Except.ok.injEq]
    generalize ((bezout (a % p).toNat p 1 0).2 % p).toNat = x' at hok hmul'
    -- two inverses of one number are equal
    have heq : (x' : ZMod p) = x := by
      calc (x' : ZMod p) = x' * (a * x) := by rw [hmul, mul_one]
        _ = a * x' * x := by ring
        _ = x := by rw [hmul', one_mul]
    rw [← ZMod.val_natCast_of_lt (lt_of_inverse hok), heq, ZMod.val_natCast_of_lt hx]

/-- Modulo a prime number every number but the multiples of the prime has an inverse. -/
theorem inverse_of_ne_zero {a : Int} {p : Nat} [Fact p.Prime] (h : (a : ZMod p) ≠ 0) :
    inverse a p = .ok (a : ZMod p)⁻¹.val := by
  refine inverse_eq_ok_iff.2 ⟨(Fact.out : p.Prime).two_le, ZMod.val_lt _, ?_⟩
  rw [ZMod.natCast_zmod_val, mul_inv_cancel₀ h]

/-! ### Integers -/

theorem inverse_eq_ok_iff_modEq {a : Int} {p x : Nat} :
    inverse a p = .ok x ↔ 2 ≤ p ∧ a.gcd p = 1 ∧ x < p ∧ a * x ≡ 1 [ZMOD p] := by
  have hcast : (a : ZMod p) * x = 1 ↔ a * x ≡ 1 [ZMOD p] := by
    rw [← ZMod.intCast_eq_intCast_iff]
    push_cast
    rfl
  constructor
  · intro h
    obtain ⟨hp, hx, hmul⟩ := inverse_eq_ok_iff.1 h
    rw [← gcd_toNat_emod a (by omega)]
    exact ⟨hp, coprime_of_mul_eq_one (by omega) hmul, hx, hcast.1 hmul⟩
  · rintro ⟨hp, -, hx, hmul⟩
    exact inverse_eq_ok_iff.2 ⟨hp, hx, hcast.2 hmul⟩

theorem inverse_eq_error_iff {a : Int} {p : Nat} {e : CryptoError} :
    inverse a p = .error e ↔
      p ≤ 1 ∧ e = .invalidModulus p ∨ 2 ≤ p ∧ a.gcd p ≠ 1 ∧ e = .notInvertible a p := by
  by_cases hp : p ≤ 1
  · have hsmall : ¬2 ≤ p := by omega
    simp [inverse, hp, hsmall, eq_comm]
  · have htwo : 2 ≤ p := by omega
    rw [← gcd_toNat_emod a (by omega)]
    by_cases hgcd : (a % p).toNat.gcd p = 1
    · simp [inverse_of_coprime htwo hgcd, hgcd, hp]
    · simp [inverse_of_not_coprime htwo hgcd, hgcd, hp, htwo, eq_comm]

/-! ### Any extended greatest common divisor -/

/-- A divisor of two integers with a coefficient for each of them. -/
structure ExtendedGcd where
  divisor : Int
  left : Int
  right : Int
  deriving DecidableEq, Repr

/-- The divisor of every two integers is their greatest common one, and it is the sum of the two
multiplied by their coefficients. -/
def IsExtendedGcd (extendedGcd : Int → Int → ExtendedGcd) : Prop :=
  ∀ u v, (extendedGcd u v).divisor = u.gcd v ∧
    u * (extendedGcd u v).left + v * (extendedGcd u v).right = (extendedGcd u v).divisor

/-- The inverse by way of an extended greatest common divisor.  A reduced coefficient below 0 would be
refused. -/
def inverseBy (extendedGcd : Int → Int → ExtendedGcd) (a : Int) (p : Nat) :
    Except CryptoError Nat :=
  if (p : Int) ≤ 1 then .error (.invalidModulus p)
  else
    let result := extendedGcd (a.fmod p) p
    if result.divisor ≠ 1 then .error (.notInvertible a p)
    else
      let coefficient := result.left.fmod p
      if coefficient < 0 then .error (.invalidModulus p) else .ok coefficient.toNat

/-- The coefficients that are found make no difference to the inverse, and none is refused. -/
theorem inverseBy_eq_inverse {extendedGcd : Int → Int → ExtendedGcd}
    (h : IsExtendedGcd extendedGcd) (a : Int) (p : Nat) :
    inverseBy extendedGcd a p = inverse a p := by
  by_cases hp : p ≤ 1
  · rw [inverseBy, if_pos (by omega), inverse, if_pos hp]
  · have htwo : 2 ≤ p := by omega
    have hfmod : ∀ z : Int, z.fmod p = z % p := fun z => Int.fmod_eq_emod_of_nonneg z (by omega)
    obtain ⟨hdivisor, hsum⟩ := h (a % p) p
    rw [Int.gcd_emod] at hdivisor
    rw [inverseBy, if_neg (by omega)]
    simp only [hfmod]
    by_cases hgcd : a.gcd p = 1
    · have hone : (extendedGcd (a % p) p).divisor = 1 := by rw [hdivisor, hgcd, Nat.cast_one]
      have hnonneg : 0 ≤ (extendedGcd (a % p) p).left % p := Int.emod_nonneg _ (by omega)
      have hlt : (extendedGcd (a % p) p).left % p < p := Int.emod_lt_of_pos _ (by omega)
      rw [if_neg (not_not.2 hone), if_neg (not_lt.2 hnonneg), eq_comm, inverse_eq_ok_iff]
      refine ⟨htwo, by omega, ?_⟩
      -- Modulo `p` only the coefficient of `a` is left of the sum.
      have hcast := congrArg (Int.cast : Int → ZMod p) hsum
      rw [hone] at hcast
      push_cast at hcast
      rw [toNat_emod_cast _ (by omega)]
      simpa using hcast
    · have hne : (extendedGcd (a % p) p).divisor ≠ 1 := by
        rw [hdivisor]
        exact_mod_cast hgcd
      rw [if_pos hne, eq_comm, inverse_eq_error_iff]
      exact .inr ⟨htwo, hgcd, rfl⟩

/-- An integer has an inverse modulo `p` exactly when `p` is at least 2 and they have no common factor;
the inverse is the number below `p` whose product with the integer is congruent to 1.  A modulus below 2
is the only reason to refuse the modulus, and otherwise the integer is refused as it was given.  All
this is so whichever coefficients the greatest common divisor comes with. -/
theorem inverse_is_exact (a : Int) (p : Nat) :
    (∀ x, inverse a p = .ok x ↔ 2 ≤ p ∧ a.gcd p = 1 ∧ x < p ∧ a * x ≡ 1 [ZMOD p]) ∧
    (∀ e, inverse a p = .error e ↔
      p ≤ 1 ∧ e = .invalidModulus p ∨ 2 ≤ p ∧ a.gcd p ≠ 1 ∧ e = .notInvertible a p) ∧
    ∀ extendedGcd, IsExtendedGcd extendedGcd → inverseBy extendedGcd a p = inverse a p :=
  ⟨fun _ => inverse_eq_ok_iff_modEq, fun _ => inverse_eq_error_iff,
    fun _ h => inverseBy_eq_inverse h a p⟩

/-- A negative integer, inverted with the coefficients of two operands, and one that shares a factor
with a modulus smaller than itself. -/
theorem inverse_is_exact_negative :
    IsExtendedGcd (fun u v => ⟨u.gcd v, u.gcdA v, u.gcdB v⟩) ∧
    inverseBy (fun u v => ⟨u.gcd v, u.gcdA v, u.gcdB v⟩) (-3) 11 = .ok 7 ∧
    inverse 15 9 = .error (.notInvertible 15 9) := by
  have hgcd : IsExtendedGcd fun u v => ⟨u.gcd v, u.gcdA v, u.gcdB v⟩ :=
    fun u v => ⟨rfl, (Int.gcd_eq_gcd_ab u v).symm⟩
  refine ⟨hgcd, ?_, ((inverse_is_exact 15 9).2.1 _).2 (.inr ⟨by decide, by decide, rfl⟩)⟩
  rw [(inverse_is_exact (-3) 11).2.2 _ hgcd, (inverse_is_exact (-3) 11).1]
  decide

end SigScript.Residue
