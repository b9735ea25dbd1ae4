import Mathlib
import SigScript.Proofs.Residue.SquareRoot

/-!
# Squares have roots

Modulo an odd prime every square has a root that is found (`exists_sqrt`).  The corrections keep
`c ^ (2 ^ (m - 1)) = -1` and `t ^ (2 ^ (m - 1)) = 1`: the order of the error `t` is a power of two
below `2 ^ m`, so it is found, and the correction lowers it (`exists_correctRoot?`).
-/

namespace SigScript.Residue

/-! ### Squaring -/

theorem squared_cast (p t times : Nat) : (squared p t times : ZMod p) = (t : ZMod p) ^ 2 ^ times := by
  induction times generalizing t with
  | zero => rw [squared, pow_zero, pow_one]
  | succ times ih =>
    rw [squared, ih, ZMod.natCast_mod, Nat.cast_mul, ← pow_two, ← pow_mul, pow_succ']

theorem eq_one_iff_cast {p t : Nat} (hp : 1 < p) (ht : t < p) : t = 1 ↔ (t : ZMod p) = 1 := by
  constructor
  · rintro rfl
    exact Nat.cast_one
  · intro h
    have hmod : t ≡ 1 [MOD p] := (ZMod.natCast_eq_natCast_iff t 1 p).1 (by rw [h, Nat.cast_one])
    exact hmod.eq_of_lt_of_lt ht hp

theorem cast_eq_zero_iff {n p : Nat} : (n : ZMod p) = 0 ↔ n % p = 0 := by
  rw [ZMod.natCast_eq_zero_iff, Nat.dvd_iff_mod_eq_zero]

section Order

variable {p t bound i : Nat}

/-- The number of squarings that is found is the least. -/
theorem pow_of_squaringsToOne? (hp : 1 < p) (ht : t < p) (h : squaringsToOne? p t bound = some i) :
    (t : ZMod p) ^ 2 ^ i = 1 ∧ ∀ j < i, (t : ZMod p) ^ 2 ^ j ≠ 1 := by
  induction bound generalizing t i with
  | zero => cases h
  | succ bound ih =>
    rw [squaringsToOne?] at h
    split at h
    · rename_i hone
      cases h
      refine ⟨?_, by simp⟩
      rw [hone, Nat.cast_one, one_pow]
    · rename_i hone
      obtain ⟨k, hk, rfl⟩ := Option.map_eq_some_iff.1 h
      have hsq : ((t * t % p : Nat) : ZMod p) = (t : ZMod p) ^ 2 := by
        rw [ZMod.natCast_mod, Nat.cast_mul, pow_two]
      obtain ⟨hpow, hleast⟩ := ih (Nat.mod_lt _ (by omega)) hk
      rw [hsq, ← pow_mul, ← pow_succ'] at hpow
      refine ⟨hpow, fun j hj => ?_⟩
      cases j with
      | zero =>
        rw [pow_zero, pow_one]
        exact mt (eq_one_iff_cast hp ht).2 hone
      | succ j =>
        have hne := hleast j (by omega)
        rwa [hsq, ← pow_mul, ← pow_succ'] at hne

theorem exists_squaringsToOne? (hp : 1 < p) (ht : t < p) (hi : i < bound)
    (h : (t : ZMod p) ^ 2 ^ i = 1) : ∃ j, squaringsToOne? p t bound = some j := by
  induction bound generalizing t i with
  | zero => omega
  | succ bound ih =>
    rw [squaringsToOne?]
    by_cases hone : t = 1
    · exact ⟨0, if_pos hone⟩
    rw [if_neg hone]
    cases i with
    | zero =>
      rw [pow_zero, pow_one] at h
      exact absurd ((eq_one_iff_cast hp ht).2 h) hone
    | succ i =>
      have hpow : ((t * t % p : Nat) : ZMod p) ^ 2 ^ i = 1 := by
        rw [ZMod.natCast_mod, Nat.cast_mul, ← pow_two, ← pow_mul, ← pow_succ', h]
      obtain ⟨j, hj⟩ := ih (Nat.mod_lt _ (by omega)) (by omega) hpow
      exact ⟨j + 1, by rw [hj]; rfl⟩

end Order

/-! ### The search for a non-residue -/

theorem quadraticCharacter_of_nonResidueFrom? {p start z : Nat} (h : nonResidueFrom? p start = some z) :
    quadraticCharacter z p = -1 := by
  fun_induction nonResidueFrom? p start with
  | case1 z' hlt hchar =>
    cases h
    exact hchar
  | case2 z' hlt hchar ih => exact ih h
  | case3 z' hlt => cases h

theorem exists_nonResidueFrom? {p start w : Nat} (hstart : start ≤ w) (hw : w < p)
    (h : quadraticCharacter w p = -1) : ∃ z, nonResidueFrom? p start = some z := by
  fun_induction nonResidueFrom? p start with
  | case1 z hlt hchar => exact ⟨z, rfl⟩
  | case2 z hlt hchar ih =>
    have hne : z ≠ w := by
      rintro rfl
      exact hchar h
    exact ih (by omega)
  | case3 z hlt => omega

section Prime

variable {p : Nat} [Fact p.Prime]

/-! ### Euler's criterion -/

theorem quadraticCharacter_of_isSquare (hodd : p % 2 = 1) {n : Nat} (hn : (n : ZMod p) ≠ 0)
    (hsq : IsSquare (n : ZMod p)) : quadraticCharacter n p = 1 := by
  have hp : 1 < p := (Fact.out : p.Prime).one_lt
  have hhalf : (p - 1) / 2 = p / 2 := by omega
  have hpow : powMod (n % p) ((p - 1) / 2) p = 1 := by
    rw [eq_one_iff_cast hp (powMod_lt _ _ (by omega)), powMod_cast, ZMod.natCast_mod, hhalf]
    exact (ZMod.euler_criterion p hn).1 hsq
  rw [quadraticCharacter, if_neg (mt cast_eq_zero_iff.2 hn), if_pos hpow]

theorem ne_zero_of_not_isSquare {z : ZMod p} (h : ¬IsSquare z) : z ≠ 0 := by
  rintro rfl
  exact h IsSquare.zero

theorem quadraticCharacter_of_not_isSquare (hodd : p % 2 = 1) {n : Nat}
    (hsq : ¬IsSquare (n : ZMod p)) : quadraticCharacter n p = -1 := by
  have hn : (n : ZMod p) ≠ 0 := ne_zero_of_not_isSquare hsq
  have hhalf : p / 2 = (p - 1) / 2 := by omega
  have hpow : powMod (n % p) ((p - 1) / 2) p ≠ 1 := by
    intro h
    refine hsq ((ZMod.euler_criterion p hn).2 ?_)
    rw [hhalf, ← ZMod.natCast_mod n p, ← powMod_cast, h, Nat.cast_one]
  rw [quadraticCharacter, if_neg (mt cast_eq_zero_iff.2 hn), if_neg hpow]

/-- A number of character -1 has the power -1. -/
theorem pow_of_quadraticCharacter_neg (hodd : p % 2 = 1) {z : Nat}
    (h : quadraticCharacter z p = -1) : (z : ZMod p) ^ ((p - 1) / 2) = -1 := by
  have hsq : ¬IsSquare (z : ZMod p) := by
    intro hsq
    by_cases hz : (z : ZMod p) = 0
    · rw [quadraticCharacter, if_pos (cast_eq_zero_iff.1 hz)] at h
      cases h
    · rw [quadraticCharacter_of_isSquare hodd hz hsq] at h
      cases h
  have hz : (z : ZMod p) ≠ 0 := ne_zero_of_not_isSquare hsq
  have hhalf : (p - 1) / 2 = p / 2 := by omega
  rw [hhalf]
  exact (ZMod.pow_div_two_eq_neg_one_or_one p hz).resolve_left
    fun hone => hsq ((ZMod.euler_criterion p hz).2 hone)

theorem exists_nonResidue (hodd : p % 2 = 1) : ∃ z, nonResidueFrom? p 2 = some z := by
  have hchar : ringChar (ZMod p) ≠ 2 := by
    rw [ZMod.ringChar_zmod_n]
    rintro rfl
    omega
  obtain ⟨w, hw⟩ := FiniteField.exists_nonsquare hchar
  have hval : ¬IsSquare ((w.val : Nat) : ZMod p) := by rwa [ZMod.natCast_zmod_val]
  refine exists_nonResidueFrom? ?_ (ZMod.val_lt w) (quadraticCharacter_of_not_isSquare hodd hval)
  by_contra hlt
  -- 0 and 1 are squares
  obtain h0 | h1 : w.val = 0 ∨ w.val = 1 := by omega
  · rw [h0, Nat.cast_zero] at hval
    exact hval IsSquare.zero
  · rw [h1, Nat.cast_one] at hval
    exact hval IsSquare.one

/-! ### The corrections -/

/-- An error whose order divides `2 ^ (m - 1)` is corrected to 1. -/
theorem exists_correctRoot? {m c t r : Nat} (hm : 1 ≤ m) (ht : t < p)
    (hc : (c : ZMod p) ^ 2 ^ (m - 1) = -1) (hone : (t : ZMod p) ^ 2 ^ (m - 1) = 1) :
    ∃ x, correctRoot? p m c t r = some x := by
  have hp : 1 < p := (Fact.out : p.Prime).one_lt
  fun_induction correctRoot? p m c t r with
  | case1 m c r => exact ⟨r, rfl⟩
  | case2 m c t r hne hnone =>
    have hlt : m - 1 < m := by omega
    obtain ⟨j, hj⟩ := exists_squaringsToOne? hp ht hlt hone
    rw [hj] at hnone
    cases hnone
  | case3 m c t r hne i hi b square ih =>
    have hlt := lt_of_squaringsToOne? hi
    obtain ⟨hpow, hleast⟩ := pow_of_squaringsToOne? hp ht hi
    have hpos : 1 ≤ i := by
      rw [Nat.one_le_iff_ne_zero]
      rintro rfl
      rw [pow_zero, pow_one] at hpow
      exact hne ((eq_one_iff_cast hp ht).2 hpow)
    -- The last power before 1 is the other root of 1.
    have hneg : (t : ZMod p) ^ 2 ^ (i - 1) = -1 := by
      have hsquare : (t : ZMod p) ^ 2 ^ (i - 1) * (t : ZMod p) ^ 2 ^ (i - 1) = 1 := by
        rw [← pow_two, ← pow_mul, ← pow_succ, Nat.sub_add_cancel hpos, hpow]
      exact (mul_self_eq_one_iff.1 hsquare).resolve_left (hleast (i - 1) (by omega))
    have hcorrection : (square : ZMod p) ^ 2 ^ (i - 1) = -1 := by
      have hexp : 2 ^ (m - i - 1) * (2 * 2 ^ (i - 1)) = 2 ^ (m - 1) := by
        rw [← pow_succ', ← pow_add]
        congr 1
        omega
      simp only [square, b, ZMod.natCast_mod, Nat.cast_mul, squared_cast]
      rw [← pow_two, ← pow_mul, ← pow_mul, hexp, hc]
    have hproduct : ((t * square % p : Nat) : ZMod p) ^ 2 ^ (i - 1) = 1 := by
      rw [ZMod.natCast_mod, Nat.cast_mul, mul_pow, hneg, hcorrection, neg_mul_neg, one_mul]
    exact ih hpos (Nat.mod_lt _ (by omega)) hcorrection hproduct

/-- Modulo an odd prime a root of every square is found. -/
theorem exists_sqrt (hodd : p % 2 = 1) {n : Nat} (hsq : IsSquare (n : ZMod p)) :
    ∃ x, sqrt n p = .ok x := by
  have hp : 1 < p := (Fact.out : p.Prime).one_lt
  have hvalid : ¬(p % 2 = 0 ∨ p < 3) := by omega
  rw [sqrt, if_neg hvalid]
  by_cases hzero : n % p = 0
  · exact ⟨0, by simp only [if_pos hzero]⟩
  have hn : ((n % p : Nat) : ZMod p) ≠ 0 := by
    rw [ZMod.natCast_mod]
    exact mt cast_eq_zero_iff.1 hzero
  have hchar : quadraticCharacter (n % p) p = 1 :=
    quadraticCharacter_of_isSquare hodd hn (by rwa [ZMod.natCast_mod])
  simp only [if_neg hzero, hchar, ne_eq, not_true_eq_false, if_false]
  split
  · exact ⟨_, rfl⟩
  obtain ⟨z, hz⟩ := exists_nonResidue hodd
  have hpos : 1 ≤ twos (p - 1) := by
    have hprod := two_pow_twos_mul_oddPart (p - 1)
    have hoddPart := oddPart_mod_two (show p - 1 ≠ 0 by omega)
    rw [Nat.one_le_iff_ne_zero]
    intro h
    rw [h, pow_zero, one_mul] at hprod
    omega
  have hexp : oddPart (p - 1) * 2 ^ (twos (p - 1) - 1) = (p - 1) / 2 := by
    have hprod := two_pow_twos_mul_oddPart (p - 1)
    obtain ⟨k, hk⟩ : ∃ k, twos (p - 1) = k + 1 := Nat.exists_eq_succ_of_ne_zero (by omega)
    rw [hk, pow_succ'] at hprod
    rw [hk, Nat.add_sub_cancel, mul_comm]
    rw [mul_assoc] at hprod
    omega
  have hc : ((powMod z (oddPart (p - 1)) p : Nat) : ZMod p) ^ 2 ^ (twos (p - 1) - 1) = -1 := by
    rw [powMod_cast, ← pow_mul, hexp]
    exact pow_of_quadraticCharacter_neg hodd (quadraticCharacter_of_nonResidueFrom? hz)
  have ht : ((powMod (n % p) (oddPart (p - 1)) p : Nat) : ZMod p) ^ 2 ^ (twos (p - 1) - 1) = 1 := by
    rw [powMod_cast, ← pow_mul, hexp]
    exact pow_of_quadraticCharacter hchar
  obtain ⟨x, hx⟩ := exists_correctRoot? (r := powMod (n % p) ((oddPart (p - 1) + 1) / 2) p) hpos
    (powMod_lt _ _ (by omega)) hc ht
  simp only [hz, hx]
  exact ⟨x, rfl⟩

end Prime

end SigScript.Residue
