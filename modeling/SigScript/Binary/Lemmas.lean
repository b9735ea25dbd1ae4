import Mathlib
import SigScript.Binary

/-!
# Bits and powers of two

The number of bits of `n` is the least exponent of a power of two above `n` (`bitLength_le_iff`), and
the bits of `n` determine `n` (`ofBits_bits`).
-/

namespace SigScript.Binary

theorem lt_two_pow_bitLength (n : Nat) : n < 2 ^ bitLength n := by
  unfold bitLength
  split
  · simp_all
  · exact Nat.lt_log2_self

theorem two_pow_le_of_bitLength {n k : Nat} (h : bitLength n = k + 1) : 2 ^ k ≤ n := by
  unfold bitLength at h
  split at h
  · omega
  · obtain rfl : n.log2 = k := by omega
    exact Nat.log2_self_le (by assumption)

/-- A number has at most `k` bits when it is below `2 ^ k`. -/
theorem bitLength_le_iff {n k : Nat} : bitLength n ≤ k ↔ n < 2 ^ k := by
  constructor
  · intro h
    exact (lt_two_pow_bitLength n).trans_le (Nat.pow_le_pow_right two_pos h)
  · intro h
    by_contra hlt
    obtain ⟨j, hj⟩ : ∃ j, bitLength n = j + 1 := Nat.exists_eq_succ_of_ne_zero (by omega)
    have hle : 2 ^ k ≤ 2 ^ j := Nat.pow_le_pow_right two_pos (by omega)
    exact absurd (hle.trans (two_pow_le_of_bitLength hj)) (not_le.2 h)

theorem ofBits_append (bs : List Bool) (b : Bool) :
    ofBits (bs ++ [b]) = 2 * ofBits bs + b.toNat := by
  simp [ofBits]

theorem ofBits_lowBits (n k : Nat) :
    ofBits ((List.range k).reverse.map n.testBit) = n % 2 ^ k := by
  induction k generalizing n with
  | zero => simp [ofBits, Nat.mod_one]
  | succ k ih =>
    have hshift : (List.range (k + 1)).reverse.map n.testBit =
        (List.range k).reverse.map (n / 2).testBit ++ [n.testBit 0] := by
      rw [List.range_succ_eq_map, List.reverse_cons, List.map_append, ← List.map_reverse,
        List.map_map]
      congr 1
      exact List.map_congr_left fun i _ => Nat.testBit_succ n i
    rw [hshift, ofBits_append, ih, Nat.testBit_zero, Nat.pow_succ']
    have hdiv : n / 2 % 2 ^ k = n % (2 * 2 ^ k) / 2 := (Nat.mod_mul_right_div_self n 2 (2 ^ k)).symm
    have hmod : n % (2 * 2 ^ k) % 2 = n % 2 := Nat.mod_mul_right_mod n 2 (2 ^ k)
    have hbit : (decide (n % 2 = 1)).toNat = n % 2 := by
      rcases Nat.mod_two_eq_zero_or_one n with h | h <;> simp [h]
    omega

theorem ofBits_bits (n : Nat) : ofBits (bits n) = n := by
  rw [bits, ofBits_lowBits, Nat.mod_eq_of_lt (lt_two_pow_bitLength n)]

end SigScript.Binary
