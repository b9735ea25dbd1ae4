import Mathlib
import SigScript.Proofs.Residue.Completeness

/-!
# Squares are told apart

Modulo an odd prime the quadratic character tells zero, the other squares and the non-squares apart,
and the search for a root fails on the non-squares alone, naming the number that has no root.  What
it finds is a root modulo every odd number (`sqrt_decides_squares`).
-/

namespace SigScript.Residue

theorem quadraticCharacter_eq_zero_iff {n p : Nat} : quadraticCharacter n p = 0 ↔ n % p = 0 := by
  unfold quadraticCharacter
  split
  · rename_i hzero
    exact iff_of_true rfl hzero
  · rename_i hzero
    refine iff_of_false ?_ hzero
    split <;> decide

section Prime

variable {n p : Nat} [Fact p.Prime]

theorem quadraticCharacter_eq_one_iff (hodd : p % 2 = 1) :
    quadraticCharacter n p = 1 ↔ n % p ≠ 0 ∧ IsSquare (n : ZMod p) := by
  constructor
  · intro h
    have hn : n % p ≠ 0 := by
      intro hzero
      rw [quadraticCharacter_eq_zero_iff.2 hzero] at h
      cases h
    refine ⟨hn, ?_⟩
    by_contra hsq
    rw [quadraticCharacter_of_not_isSquare hodd hsq] at h
    cases h
  · rintro ⟨hn, hsq⟩
    exact quadraticCharacter_of_isSquare hodd (mt cast_eq_zero_iff.1 hn) hsq

theorem quadraticCharacter_eq_neg_one_iff (hodd : p % 2 = 1) :
    quadraticCharacter n p = -1 ↔ ¬IsSquare (n : ZMod p) := by
  refine ⟨fun h hsq => ?_, quadraticCharacter_of_not_isSquare hodd⟩
  by_cases hn : n % p = 0
  · rw [quadraticCharacter_eq_zero_iff.2 hn] at h
    cases h
  · rw [(quadraticCharacter_eq_one_iff hodd).2 ⟨hn, hsq⟩] at h
    cases h

theorem sqrt_of_not_isSquare (hodd : p % 2 = 1) (hsq : ¬IsSquare (n : ZMod p)) :
    sqrt n p = .error (.nonResidue (n % p) p) := by
  have hp : 1 < p := (Fact.out : p.Prime).one_lt
  have hvalid : ¬(p % 2 = 0 ∨ p < 3) := by omega
  have hn : n % p ≠ 0 := mt cast_eq_zero_iff.2 (ne_zero_of_not_isSquare hsq)
  have hchar : quadraticCharacter (n % p) p ≠ 1 := by
    rw [quadraticCharacter_of_not_isSquare hodd (by rwa [ZMod.natCast_mod])]
    decide
  rw [sqrt, if_neg hvalid]
  simp only [if_neg hn, if_pos hchar]

theorem sqrt_isOk_iff (hodd : p % 2 = 1) : (∃ x, sqrt n p = .ok x) ↔ IsSquare (n : ZMod p) := by
  refine ⟨?_, exists_sqrt hodd⟩
  rintro ⟨x, hx⟩
  exact ⟨x, by rw [← pow_two, sq_of_sqrt hx]⟩

end Prime

/-- Modulo every odd number, what is found is a reduced root.  If the modulus is prime, the
quadratic character is 0, 1 or -1 for zero, for the other squares and for the non-squares, and a root
is found for the squares alone; the failure for all others names the reduced number. -/
theorem sqrt_decides_squares (n : Nat) {p : Nat} (hodd : p % 2 = 1) :
    (∀ x, sqrt n p = .ok x → x < p ∧ x ^ 2 ≡ n [MOD p]) ∧
    (p.Prime →
      (quadraticCharacter n p = 0 ↔ n % p = 0) ∧
      (quadraticCharacter n p = 1 ↔ n % p ≠ 0 ∧ IsSquare (n : ZMod p)) ∧
      (quadraticCharacter n p = -1 ↔ ¬IsSquare (n : ZMod p)) ∧
      ((∃ x, sqrt n p = .ok x) ↔ IsSquare (n : ZMod p)) ∧
      (¬IsSquare (n : ZMod p) → sqrt n p = .error (.nonResidue (n % p) p))) := by
  refine ⟨?_, ?_⟩
  · intro x hx
    refine ⟨lt_of_sqrt hx, ?_⟩
    rw [← ZMod.natCast_eq_natCast_iff, Nat.cast_pow]
    exact sq_of_sqrt hx
  · intro hprime
    have : Fact p.Prime := ⟨hprime⟩
    exact ⟨quadraticCharacter_eq_zero_iff, quadraticCharacter_eq_one_iff hodd,
      quadraticCharacter_eq_neg_one_iff hodd, sqrt_isOk_iff hodd, sqrt_of_not_isSquare hodd⟩

/-- Modulo 41 the corrections are needed for the root of 2, and 3 has no root. -/
theorem sqrt_decides_squares_fortyOne :
    (∃ x, sqrt 2 41 = .ok x ∧ x ^ 2 ≡ 2 [MOD 41]) ∧ sqrt 3 41 = .error (.nonResidue 3 41) := by
  have hprime : Nat.Prime 41 := by norm_num
  have htwo := sqrt_decides_squares 2 (p := 41) (by decide)
  have hthree := sqrt_decides_squares 3 (p := 41) (by decide)
  obtain ⟨x, hx⟩ := (htwo.2 hprime).2.2.2.1.2 ⟨17, by decide⟩
  refine ⟨⟨x, hx, (htwo.1 x hx).2⟩, (hthree.2 hprime).2.2.2.2 ?_⟩
  rintro ⟨y, hy⟩
  revert y
  decide

end SigScript.Residue
