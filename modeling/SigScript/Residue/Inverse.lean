import SigScript.CryptoError

/-!
# Inverses modulo a number

The inverse comes from the Euclidean algorithm, run with the coefficient of the first operand
alone: the coefficient of the modulus never matters.
-/

namespace SigScript.Residue

/-- The greatest common divisor of `r` and `s`, with a coefficient.  When `r` and `s` are congruent
to `x * a` and `y * a` modulo some `m`, the divisor is congruent to the coefficient times `a`. -/
def bezout (r s : Nat) (x y : Int) : Nat × Int :=
  if _ : s = 0 then (r, x) else bezout s (r % s) y (x - (r / s : Nat) * y)
termination_by s
decreasing_by exact Nat.mod_lt r (by omega)

/-- The number below `p` whose product with `a` is 1 modulo `p`.  Moduli below 2 have no inverses,
and only numbers coprime to the modulus have one. -/
def inverse (a : Int) (p : Nat) : Except CryptoError Nat :=
  if p ≤ 1 then .error (.invalidModulus p)
  else
    let (divisor, coefficient) := bezout (a % p).toNat p 1 0
    if divisor = 1 then .ok (coefficient % p).toNat else .error (.notInvertible a p)

/-! ### What the Euclidean algorithm keeps -/

theorem bezout_fst (r s : Nat) (x y : Int) : (bezout r s x y).1 = r.gcd s := by
  fun_induction bezout r s x y with
  | case1 r x y => simp
  | case2 r s x y h ih => rw [ih, Nat.gcd_comm r s, Nat.gcd_rec s r, Nat.gcd_comm]

end SigScript.Residue
