import Mathlib
import SigScript.Binary.Lemmas
import SigScript.Bytes.Lemmas
import SigScript.Proofs.Bytes.Bits

/-!
# The number of a string of bits

Bits that follow others shift these to the left (`ofBits_append_list`), so the first bits of a string
are its number shifted to the right (`ofBits_take`).  A byte string and its bits stand for the same
number (`toNat_eq_ofBits`).
-/

namespace SigScript

namespace Binary

/-- Bits that follow a number shift it to the left. -/
theorem foldl_ofBits (n : Nat) (l : List Bool) :
    l.foldl (fun n b => 2 * n + b.toNat) n = n * 2 ^ l.length + ofBits l := by
  induction l using List.reverseRecOn with
  | nil => simp [ofBits]
  | append_singleton l b ih =>
    rw [List.foldl_append, ih, ofBits_append, List.length_append, List.length_singleton,
      Nat.pow_succ]
    simp only [List.foldl_cons, List.foldl_nil]
    ring

theorem ofBits_append_list (l more : List Bool) :
    ofBits (l ++ more) = ofBits l * 2 ^ more.length + ofBits more := by
  rw [ofBits, List.foldl_append, foldl_ofBits]
  rfl

theorem ofBits_lt (l : List Bool) : ofBits l < 2 ^ l.length := by
  induction l using List.reverseRecOn with
  | nil => decide
  | append_singleton l b ih =>
    have hb := Bool.toNat_lt b
    rw [ofBits_append, List.length_append, List.length_singleton, Nat.pow_succ]
    omega

theorem ofBits_replicate_false (n : Nat) : ofBits (List.replicate n false) = 0 := by
  induction n with
  | zero => rfl
  | succ n ih =>
    rw [List.replicate_succ', ofBits_append, ih]
    rfl

/-- The first bits are what a shift to the right leaves. -/
theorem ofBits_take (l : List Bool) (n : Nat) :
    ofBits (l.take n) = ofBits l >>> (l.length - n) := by
  have hsplit : ofBits l = ofBits (l.take n) * 2 ^ (l.length - n) + ofBits (l.drop n) := by
    rw [← List.length_drop, ← ofBits_append_list, List.take_append_drop]
  have hdrop := ofBits_lt (l.drop n)
  rw [List.length_drop] at hdrop
  rw [hsplit, Nat.shiftRight_eq_div_pow, Nat.mul_comm, Nat.mul_add_div (Nat.two_pow_pos _),
    Nat.div_eq_of_lt hdrop, Nat.add_zero]

end Binary

namespace Bytes

theorem ofBits_octetBits (b : UInt8) : Binary.ofBits (octetBits b) = b.toNat := by
  have hbits : octetBits b = (List.range 8).reverse.map b.toNat.testBit := rfl
  rw [hbits, Binary.ofBits_lowBits, Nat.mod_eq_of_lt b.toNat_lt]

theorem toNat_eq_ofBits (bs : Bytes) : toNat bs = Binary.ofBits (bits bs) := by
  induction bs with
  | nil => rfl
  | cons b bs ih =>
    have hpow : (256 : Nat) ^ bs.length = 2 ^ (8 * bs.length) := by rw [Nat.pow_mul]
    rw [bits_cons, Binary.ofBits_append_list, length_bits, ofBits_octetBits, toNat_cons, ih, hpow]

end Bytes

end SigScript
