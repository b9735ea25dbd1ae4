import Mathlib
import SigScript.Binary.Lemmas
import SigScript.Bytes

/-!
# Reading back numbers

The bytes of a natural number stand for that number (`toNat_ofNat`); with a fixed width, for its
remainder (`toNat_ofNatPadded`).  Every byte string is the number that it stands for, written in the
width of the byte string (`ofNatPadded_toNat`); without leading zeros that is the least width
(`ofNat_toNat`).
-/

namespace SigScript.Bytes

theorem toNat_append (bs : Bytes) (b : UInt8) : toNat (bs ++ [b]) = toNat bs * 256 + b.toNat := by
  simp [toNat]

theorem toNat_cons (b : UInt8) (bs : Bytes) :
    toNat (b :: bs) = b.toNat * 256 ^ bs.length + toNat bs := by
  induction bs using List.reverseRecOn with
  | nil => simp [toNat]
  | append_singleton bs c ih =>
    rw [← List.cons_append, toNat_append, toNat_append, ih, List.length_append,
      List.length_singleton, Nat.pow_succ]
    ring

theorem toNat_lt (bs : Bytes) : toNat bs < 256 ^ bs.length := by
  induction bs using List.reverseRecOn with
  | nil => decide
  | append_singleton bs b ih =>
    have hb := b.toNat_lt
    rw [toNat_append, List.length_append, List.length_singleton, Nat.pow_succ]
    omega

@[simp] theorem length_ofNatPadded (width n : Nat) : (ofNatPadded width n).length = width := by
  induction width generalizing n with
  | zero => rfl
  | succ width ih => simp [ofNatPadded, ih]

theorem toNat_ofNatPadded (width n : Nat) : toNat (ofNatPadded width n) = n % 256 ^ width := by
  induction width generalizing n with
  | zero => simp [ofNatPadded, toNat, Nat.mod_one]
  | succ width ih =>
    rw [ofNatPadded, toNat_append, ih, Nat.pow_succ', Nat.mod_mul, Nat.mul_comm (n / 256 % _)]
    simp [Nat.add_comm]

/-- Written in its own width, a byte string is the byte string again. -/
theorem ofNatPadded_toNat (bs : Bytes) : ofNatPadded bs.length (toNat bs) = bs := by
  induction bs using List.reverseRecOn with
  | nil => rfl
  | append_singleton bs b ih =>
    have hb := b.toNat_lt
    have hdiv : (toNat bs * 256 + b.toNat) / 256 = toNat bs := by omega
    have hmod : (toNat bs * 256 + b.toNat) % 256 = b.toNat := by omega
    rw [List.length_append, List.length_singleton, ofNatPadded, toNat_append, hdiv, hmod, ih,
      UInt8.ofNat_toNat]

theorem byteLength_le_iff {n k : Nat} : byteLength n ≤ k ↔ n < 256 ^ k := by
  have hpow : (256 : Nat) ^ k = 2 ^ (8 * k) := by rw [Nat.pow_mul]
  rw [hpow, ← Binary.bitLength_le_iff, byteLength]
  omega

theorem lt_pow_byteLength (n : Nat) : n < 256 ^ byteLength n := by
  have h := Binary.lt_two_pow_bitLength n
  have : (256 : Nat) ^ byteLength n = 2 ^ (8 * byteLength n) := by rw [Nat.pow_mul]
  rw [this]
  exact Nat.lt_of_lt_of_le h (Nat.pow_le_pow_right (by omega) (by unfold byteLength; omega))

theorem toNat_ofNat (n : Nat) : toNat (ofNat n) = n := by
  rw [ofNat, toNat_ofNatPadded, Nat.mod_eq_of_lt (lt_pow_byteLength n)]

@[simp] theorem length_ofNat (n : Nat) : (ofNat n).length = byteLength n := length_ofNatPadded _ n

/-! ### Leading zeros -/

/-- Without leading zeros a byte string is as long as its number needs. -/
theorem byteLength_toNat {b : UInt8} {bs : Bytes} (hb : b ≠ 0) :
    byteLength (toNat (b :: bs)) = bs.length + 1 := by
  have hle : byteLength (toNat (b :: bs)) ≤ bs.length + 1 := byteLength_le_iff.2 (toNat_lt _)
  have hlt : ¬byteLength (toNat (b :: bs)) ≤ bs.length := by
    have hpos : 1 ≤ b.toNat := Nat.one_le_iff_ne_zero.2 fun h => hb (UInt8.toNat_inj.1 h)
    have hmul := Nat.mul_le_mul_right (256 ^ bs.length) hpos
    rw [byteLength_le_iff, toNat_cons]
    omega
  omega

theorem ofNat_toNat {b : UInt8} {bs : Bytes} (hb : b ≠ 0) : ofNat (toNat (b :: bs)) = b :: bs := by
  rw [ofNat, byteLength_toNat hb]
  exact ofNatPadded_toNat (b :: bs)

/-- The bytes of a number do not start with a zero. -/
theorem exists_ofNat_eq_cons {n : Nat} (hn : n ≠ 0) : ∃ b bs, ofNat n = b :: bs ∧ b ≠ 0 := by
  cases h : ofNat n with
  | nil =>
    have hzero := toNat_ofNat n
    rw [h] at hzero
    exact absurd hzero.symm hn
  | cons b bs =>
    refine ⟨b, bs, rfl, ?_⟩
    rintro rfl
    -- A leading zero could be left out, but the width is the least one for `n`.
    have hlt : n < 256 ^ bs.length := by
      have hvalue := toNat_ofNat n
      rw [h, toNat_cons] at hvalue
      have hbs := toNat_lt bs
      simp only [UInt8.toNat_zero, zero_mul, zero_add] at hvalue
      omega
    have hlength := congrArg List.length h
    rw [length_ofNat, List.length_cons] at hlength
    have := byteLength_le_iff.2 hlt
    omega

end SigScript.Bytes
