import Mathlib
import SigScript.Residue.Power.Lemmas
import SigScript.Residue.SquareRoot

/-!
# The roots that are found are roots

`sqrt` answers only with reduced square roots (`lt_of_sqrt`, `sq_of_sqrt`).  The candidate `r` and
the error `t` keep `r ^ 2 = n * t`, which needs no prime modulus: the order of the error decides
when the loop ends, never what it answers.
-/

namespace SigScript.Residue

theorem powMod_cast (b e m : Nat) : (powMod b e m : ZMod m) = (b : ZMod m) ^ e := by
  rw [powMod_eq, ZMod.natCast_mod, Nat.cast_pow]

theorem powMod_lt (b e : Nat) {m : Nat} (hm : 0 < m) : powMod b e m < m := by
  rw [powMod_eq]
  exact Nat.mod_lt _ hm

/-! ### Halving -/

theorem two_pow_twos_mul_oddPart (n : Nat) : 2 ^ twos n * oddPart n = n := by
  fun_induction twos n with
  | case1 n h => rw [oddPart, dif_pos h, pow_zero, one_mul]
  | case2 n h ih =>
    rw [oddPart, dif_neg h, pow_succ', mul_assoc, ih]
    omega

theorem oddPart_mod_two {n : Nat} (hn : n ≠ 0) : oddPart n % 2 = 1 := by
  fun_induction oddPart n with
  | case1 n h => exact h.resolve_left hn
  | case2 n h ih => exact ih (by omega)

/-- When 2 divides `p - 1` once, `p` is 3 modulo 4. -/
theorem mod_four_of_twos {p : Nat} (hp : 3 ≤ p) (h : twos (p - 1) = 1) : p % 4 = 3 := by
  have hprod := two_pow_twos_mul_oddPart (p - 1)
  have hodd := oddPart_mod_two (show p - 1 ≠ 0 by omega)
  rw [h, pow_one] at hprod
  omega

/-! ### The error of the candidate -/

theorem pow_of_quadraticCharacter {n p : Nat} (h : quadraticCharacter n p = 1) :
    (n : ZMod p) ^ ((p - 1) / 2) = 1 := by
  unfold quadraticCharacter at h
  split at h
  · cases h
  · split at h
    · rename_i hpow
      rw [← ZMod.natCast_mod n p, ← powMod_cast, hpow, Nat.cast_one]
    · cases h

/-- A correction multiplies the error by the square of what it multiplies the candidate by. -/
theorem sq_of_correctRoot? {p m c t r x : Nat} {n : ZMod p} (hr : (r : ZMod p) ^ 2 = n * t)
    (h : correctRoot? p m c t r = some x) : (x : ZMod p) ^ 2 = n := by
  fun_induction correctRoot? p m c t r with
  | case1 m c r =>
    cases h
    rw [hr, Nat.cast_one, mul_one]
  | case2 => cases h
  | case3 m c t r ht i hi b square ih =>
    refine ih ?_ h
    simp only [square, ZMod.natCast_mod, Nat.cast_mul, mul_pow, hr]
    ring

theorem lt_of_correctRoot? {p m c t r x : Nat} (hr : r < p)
    (h : correctRoot? p m c t r = some x) : x < p := by
  fun_induction correctRoot? p m c t r with
  | case1 m c r =>
    cases h
    exact hr
  | case2 => cases h
  | case3 m c t r ht i hi b square ih => exact ih (Nat.mod_lt _ (by omega)) h

/-! ### The three ways to a root -/

/-- Every root comes from 0, from one power when `p` is 3 modulo 4, or from the corrections of a
power by a non-residue. -/
theorem cases_of_sqrt {n p x : Nat} (h : sqrt n p = .ok x) :
    p % 2 = 1 ∧ 3 ≤ p ∧ (n % p = 0 ∧ x = 0 ∨
      quadraticCharacter (n % p) p = 1 ∧
        (twos (p - 1) = 1 ∧ x = powMod (n % p) ((p + 1) / 4) p ∨
          ∃ m c, correctRoot? p m c (powMod (n % p) (oddPart (p - 1)) p)
            (powMod (n % p) ((oddPart (p - 1) + 1) / 2) p) = some x)) := by
  unfold sqrt at h
  split at h
  · cases h
  · refine ⟨by omega, by omega, ?_⟩
    simp only at h
    split at h
    · rename_i h0
      cases h
      exact .inl ⟨h0, rfl⟩
    · split at h
      · cases h
      · rename_i hchar
        refine .inr ⟨not_not.1 hchar, ?_⟩
        split at h
        · rename_i htwos
          cases h
          exact .inl ⟨htwos, rfl⟩
        · split at h
          · cases h
          · split at h
            · rename_i hroot
              cases h
              exact .inr ⟨_, _, hroot⟩
            · cases h

theorem lt_of_sqrt {n p x : Nat} (h : sqrt n p = .ok x) : x < p := by
  obtain ⟨-, hp, ⟨-, rfl⟩ | ⟨-, ⟨-, rfl⟩ | ⟨m, c, hroot⟩⟩⟩ := cases_of_sqrt h
  · omega
  · exact powMod_lt _ _ (by omega)
  · exact lt_of_correctRoot? (powMod_lt _ _ (by omega)) hroot

theorem sq_of_sqrt {n p x : Nat} (h : sqrt n p = .ok x) : (x : ZMod p) ^ 2 = n := by
  obtain ⟨hodd, hp, ⟨h0, rfl⟩ | ⟨hchar, ⟨htwos, rfl⟩ | ⟨m, c, hroot⟩⟩⟩ := cases_of_sqrt h
  · rw [← ZMod.natCast_mod n p, h0, Nat.cast_zero, zero_pow two_ne_zero]
  · have hpow := pow_of_quadraticCharacter hchar
    have hexp : (p + 1) / 4 * 2 = (p - 1) / 2 + 1 := by
      have := mod_four_of_twos hp htwos
      omega
    rw [powMod_cast, ← pow_mul, hexp, pow_succ, hpow, one_mul, ZMod.natCast_mod]
  · rw [← ZMod.natCast_mod n p]
    refine sq_of_correctRoot? ?_ hroot
    have hexp : (oddPart (p - 1) + 1) / 2 * 2 = oddPart (p - 1) + 1 := by
      have := oddPart_mod_two (show p - 1 ≠ 0 by omega)
      omega
    rw [powMod_cast, powMod_cast, ← pow_mul, hexp, pow_succ']

end SigScript.Residue
