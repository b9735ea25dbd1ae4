import Mathlib
import SigScript.Digest.Lsh

/-!
# Compression is a bijection of the chaining value

With a block held fixed, compression loses nothing: different chaining values stay different, and as
there are only finitely many, every value is reached (`lsh_compression_is_bijective`).  Every part of a
step can be undone for itself, whatever the rotation amounts, the constants and the sub-message are.
All that is asked of the table `sigma` is that each position occurs in it.
-/

namespace SigScript

namespace Lsh

open Digest

/-! ### Words -/

/-- The shifts of a rotation are by the amount modulo 32. -/
theorem toBitVec_rotateLeft32 (x n : UInt32) :
    (rotateLeft32 x n).toBitVec = x.toBitVec.rotateLeft n.toNat := by
  have hsize : UInt32.toNat 32 = 32 := rfl
  have hwidth : BitVec.toNat (32 : BitVec 32) = 32 := rfl
  have hleft : (n.toBitVec % 32).toNat = n.toNat % 32 := BitVec.toNat_umod
  have hright : ((32 - n).toBitVec % 32).toNat = (32 - n.toNat % 32) % 32 := by
    have hlt := n.toNat_lt
    rw [BitVec.toNat_umod, UInt32.toNat_toBitVec, UInt32.toNat_sub, hsize, hwidth]
    omega
  rw [rotateLeft32, UInt32.toBitVec_or, UInt32.toBitVec_shiftLeft, UInt32.toBitVec_shiftRight,
    BitVec.rotateLeft_def, BitVec.shiftLeft_eq', BitVec.ushiftRight_eq', hleft, hright]
  by_cases hzero : n.toNat % 32 = 0
  · -- The shift back would be by 32; by 0 instead it brings the same word again.
    have hout : x.toBitVec >>> 32 = 0 := BitVec.ushiftRight_eq_zero le_rfl
    rw [hzero]
    simp [hout]
  · rw [Nat.mod_eq_of_lt (show 32 - n.toNat % 32 < 32 by omega)]

theorem rotateLeft32_injective (n : UInt32) : Function.Injective fun x => rotateLeft32 x n := by
  intro x y h
  have hbits : x.toBitVec.rotateLeft n.toNat = y.toBitVec.rotateLeft n.toNat := by
    rw [← toBitVec_rotateLeft32, ← toBitVec_rotateLeft32]
    exact congrArg UInt32.toBitVec h
  apply UInt32.toBitVec_inj.1
  apply BitVec.eq_of_getLsbD_eq
  intro i hi
  -- Bit `i` has moved up, or round to the other end of the word.
  have hmod : n.toNat % 32 < 32 := Nat.mod_lt _ (by decide)
  have hbit := congrArg (fun word => word.getLsbD ((i + n.toNat) % 32)) hbits
  simp only [BitVec.getLsbD_rotateLeft] at hbit
  by_cases hwrap : i + n.toNat % 32 < 32
  · have hplace : (i + n.toNat) % 32 = i + n.toNat % 32 := by omega
    simpa [hplace, hwrap] using hbit
  · have hplace : (i + n.toNat) % 32 = i + n.toNat % 32 - 32 := by omega
    have hfront : i + n.toNat % 32 - 32 < n.toNat % 32 := by omega
    have hback : 32 - n.toNat % 32 + (i + n.toNat % 32 - 32) = i := by omega
    simpa [hplace, hfront, hback] using hbit

/-- The words of a column are found again from its new words, the right one first. -/
theorem mixColumn_injective {alpha beta gamma constant left right left' right' : UInt32}
    (h : mixColumn alpha beta gamma constant left right =
      mixColumn alpha beta gamma constant left' right') : left = left' ∧ right = right' := by
  simp only [mixColumn, Prod.mk.injEq] at h
  obtain ⟨hsum, hturned⟩ := h
  have hlast := rotateLeft32_injective gamma hturned
  rw [hlast] at hsum
  have hmixed := (UInt32.add_left_inj _).1 hsum
  have hright := rotateLeft32_injective beta hlast
  simp only [hmixed] at hright
  obtain rfl := (UInt32.add_right_inj _).1 hright
  have hfirst := rotateLeft32_injective alpha ((UInt32.xor_left_inj _).1 hmixed)
  exact ⟨(UInt32.add_left_inj _).1 hfirst, rfl⟩

/-! ### Chaining values -/

theorem words_ext {u v : Words} (h : ∀ j, u.get j = v.get j) : u = v :=
  Vector.ext fun i hi => h ⟨i, hi⟩

theorem addWords_injective (message : Words) :
    Function.Injective fun chain => addWords chain message := by
  intro u v h
  apply words_ext
  intro j
  have hj := congrArg (fun w : Words => w.get j) h
  simp only [addWords, Vector.get_ofFn] at hj
  exact (UInt32.xor_left_inj _).1 hj

theorem mixColumns_injective (step : Nat) : Function.Injective (mixColumns step) := by
  intro u v h
  have hcolumn : ∀ col : Fin 8, u.get ⟨col, by omega⟩ = v.get ⟨col, by omega⟩ ∧
      u.get ⟨col + 8, by omega⟩ = v.get ⟨col + 8, by omega⟩ := by
    intro col
    have hcol := congrArg (fun columns => columns.get col) h
    simp only [mixColumns, Vector.get_ofFn] at hcol
    exact mixColumn_injective hcol
  apply words_ext
  intro j
  by_cases hj : j.val < 8
  · exact (hcolumn ⟨j, hj⟩).1
  · have hsub : (⟨j.val - 8 + 8, by omega⟩ : Fin 16) = j := Fin.ext (by simp only; omega)
    have hright := (hcolumn ⟨j - 8, by omega⟩).2
    rw [hsub] at hright
    exact hright

theorem get_joinColumns_left (columns : Vector (UInt32 × UInt32) 8) {i : Nat} (hi : i < 8) :
    (joinColumns columns).get ⟨i, Nat.lt_add_right 8 hi⟩ = (columns.get ⟨i, hi⟩).1 := by
  rw [joinColumns, Vector.get_ofFn, dif_pos hi]

theorem get_joinColumns_right (columns : Vector (UInt32 × UInt32) 8) {i : Nat} (hi : i < 8) :
    (joinColumns columns).get ⟨i + 8, Nat.add_lt_add_right hi 8⟩ = (columns.get ⟨i, hi⟩).2 := by
  rw [joinColumns, Vector.get_ofFn, dif_neg (by simp)]
  simp only [Nat.add_sub_cancel]

theorem joinColumns_injective : Function.Injective joinColumns := by
  intro columns columns' h
  apply Vector.ext
  intro i hi
  have hleft := get_joinColumns_left columns hi
  have hright := get_joinColumns_right columns hi
  rw [h, get_joinColumns_left columns' hi] at hleft
  rw [h, get_joinColumns_right columns' hi] at hright
  exact Prod.ext hleft.symm hright.symm

theorem permute_injective : Function.Injective permute := by
  have hsigma : Function.Surjective sigma.get := by decide
  intro u v h
  apply words_ext
  intro j
  obtain ⟨i, rfl⟩ := hsigma j
  have hi := congrArg (fun w : Words => w.get i) h
  simpa only [permute, Vector.get_ofFn] using hi

theorem mixStep_injective (step : Nat) (message : Words) :
    Function.Injective (mixStep step message) :=
  permute_injective.comp
    (joinColumns_injective.comp ((mixColumns_injective step).comp (addWords_injective message)))

/-! ### Compression -/

theorem mix_injective (step : Nat) (messages : List Words) :
    Function.Injective (mix step messages) := by
  induction messages generalizing step with
  | nil => exact Function.injective_id
  | cons message messages ih =>
    cases messages with
    | nil => exact addWords_injective message
    | cons next messages => exact (ih (step + 1)).comp (mixStep_injective step message)

theorem compress_injective (block : Bytes) : Function.Injective fun chain => compress chain block :=
  mix_injective 0 _

instance : Finite Words :=
  Finite.of_injective Vector.get fun _ _ h => words_ext (congrFun h)

end Lsh

/-- For every block, compression is a bijection of the chaining value. -/
theorem lsh_compression_is_bijective (block : Bytes) :
    Function.Bijective fun chain => Lsh.compress chain block :=
  Finite.injective_iff_bijective.1 (Lsh.compress_injective block)

end SigScript
