import Mathlib
import SigScript.Binary.Lemmas
import SigScript.Residue.Power

/-!
# The value of a modular power

Square and multiply computes the remainder of the power (`powMod_eq`).
-/

namespace SigScript.Residue

theorem powStep_pow (b m k : Nat) (bit : Bool) :
    powStep b m (b ^ k % m) bit = b ^ (2 * k + bit.toNat) % m := by
  cases bit with
  | false => simp [powStep, ← Nat.pow_add, Nat.two_mul]
  | true =>
    simp only [powStep, ↓reduceIte, Bool.toNat_true]
    rw [← Nat.mul_mod, ← Nat.pow_add, Nat.mod_mul_mod, ← Nat.pow_succ, Nat.two_mul]

theorem foldl_powStep (b m k : Nat) (bs : List Bool) :
    bs.foldl (powStep b m) (b ^ k % m) =
      b ^ (bs.foldl (fun n bit => 2 * n + bit.toNat) k) % m := by
  induction bs generalizing k with
  | nil => rfl
  | cons bit bs ih => rw [List.foldl_cons, powStep_pow, ih, List.foldl_cons]

theorem powMod_eq (b e m : Nat) : powMod b e m = b ^ e % m := by
  have h := foldl_powStep b m 0 (Binary.bits e)
  rw [Nat.pow_zero] at h
  rw [powMod, h, ← Binary.ofBits, Binary.ofBits_bits]

end SigScript.Residue
