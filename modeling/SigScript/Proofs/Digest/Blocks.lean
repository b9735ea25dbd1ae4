import Mathlib
import SigScript.Digest.Block
import SigScript.Proofs.Bytes.Bits

/-!
# Cutting input into blocks

Absorbing input is a fold over its whole blocks (`absorb_fst`); the bytes behind them are left over
(`absorb_snd`), as many as the length modulo the size (`length_absorb_snd`), and they begin the next
block (`blocks_append`).  Blocks of bytes and blocks of their bits are the same blocks
(`map_ofBits_blocks`).
-/

namespace SigScript.Digest

section

variable {α : Type} {size : Nat} {l : List α}

/-- The whole blocks of a list, from the front. -/
def blocks (size : Nat) (l : List α) : List (List α) :=
  (List.range (l.length / size)).map fun i => (l.drop (size * i)).take size

theorem blocks_of_length_lt (h : l.length < size) : blocks size l = [] := by
  rw [blocks, Nat.div_eq_of_lt h, List.range_zero, List.map_nil]

theorem blocks_of_le_length (hsize : 0 < size) (h : size ≤ l.length) :
    blocks size l = l.take size :: blocks size (l.drop size) := by
  have hcount : l.length / size = (l.drop size).length / size + 1 := by
    rw [List.length_drop, Nat.div_eq_sub_div hsize h]
  rw [blocks, hcount, List.range_succ_eq_map, List.map_cons, List.map_map, blocks]
  congr 1
  apply List.map_congr_left
  intro i _
  rw [Function.comp_apply, List.drop_drop, Nat.mul_succ, Nat.add_comm]

theorem blocks_of_length_eq (hsize : 0 < size) (h : l.length = size) : blocks size l = [l] := by
  have hrest : blocks size (l.drop size) = [] :=
    blocks_of_length_lt (by rw [List.length_drop]; omega)
  rw [blocks_of_le_length hsize h.ge, List.take_of_length_le h.le, hrest]

theorem length_of_mem_blocks {block : List α} (h : block ∈ blocks size l) : block.length = size := by
  obtain ⟨i, hi, rfl⟩ := List.mem_map.1 h
  have hend : size * (i + 1) ≤ l.length :=
    (Nat.mul_le_mul_left size (List.mem_range.1 hi)).trans (Nat.mul_div_le ..)
  rw [Nat.mul_succ] at hend
  rw [List.length_take, List.length_drop]
  omega

theorem flatten_blocks (h : l.length % size = 0) : (blocks size l).flatten = l := by
  have hinitial : ∀ n, ((List.range n).map fun i => (l.drop (size * i)).take size).flatten =
      l.take (size * n) := by
    intro n
    induction n with
    | zero => rw [List.range_zero, List.map_nil, List.flatten_nil, Nat.mul_zero, List.take_zero]
    | succ n ih =>
      rw [List.range_succ, List.map_append, List.flatten_append, ih, Nat.mul_succ, List.take_add,
        List.map_singleton, List.flatten_singleton]
  rw [blocks, hinitial, Nat.mul_div_cancel' (Nat.dvd_of_mod_eq_zero h), List.take_length]

end

section Absorb

variable {σ : Type} {size : Nat} {step : σ → Bytes → σ}

theorem absorb_of_length_eq {state : σ} {data : Bytes} (h : data.length = size + 1) :
    absorb size step state data = (step state data, []) := by
  rw [absorb_of_lt_length (by omega), List.take_of_length_le h.le, List.drop_eq_nil_of_le h.le,
    absorb_of_length_le (Nat.zero_le _)]

theorem absorb_fst (state : σ) (data : Bytes) :
    (absorb size step state data).1 = (blocks (size + 1) data).foldl step state := by
  induction h : data.length using Nat.strongRecOn generalizing data state with
  | ind n ih =>
    by_cases hlt : size < data.length
    · rw [absorb_of_lt_length hlt, blocks_of_le_length (by omega) (by omega), List.foldl_cons]
      exact ih _ (by rw [List.length_drop]; omega) _ _ rfl
    · rw [absorb_of_length_le (by omega), blocks_of_length_lt (by omega), List.foldl_nil]

theorem absorb_snd (state : σ) (data : Bytes) :
    (absorb size step state data).2 = data.drop ((size + 1) * (data.length / (size + 1))) := by
  induction h : data.length using Nat.strongRecOn generalizing data state with
  | ind n ih =>
    by_cases hlt : size < data.length
    · have hcount : n / (size + 1) = (n - (size + 1)) / (size + 1) + 1 :=
        Nat.div_eq_sub_div (by omega) (by omega)
      rw [absorb_of_lt_length hlt, ih _ (by rw [List.length_drop]; omega) _ _ rfl, List.drop_drop,
        List.length_drop, h, hcount, Nat.mul_succ, Nat.add_comm]
    · have hnone : n / (size + 1) = 0 := Nat.div_eq_of_lt (by omega)
      rw [absorb_of_length_le (by omega), hnone, Nat.mul_zero, List.drop_zero]

theorem length_absorb_snd (state : σ) (data : Bytes) :
    (absorb size step state data).2.length = data.length % (size + 1) := by
  rw [absorb_snd, List.length_drop, Nat.mod_eq_sub]

/-- The bytes after the last whole block are cut together with what follows them. -/
theorem blocks_append (state : σ) (front back : Bytes) :
    blocks (size + 1) (front ++ back) =
      blocks (size + 1) front ++ blocks (size + 1) ((absorb size step state front).2 ++ back) := by
  induction h : front.length using Nat.strongRecOn generalizing front state with
  | ind n ih =>
    by_cases hlt : size < front.length
    · have hjoined : size + 1 ≤ (front ++ back).length := by
        rw [List.length_append]
        omega
      rw [absorb_of_lt_length hlt, blocks_of_le_length (by omega) hjoined,
        List.take_append_of_le_length hlt, List.drop_append_of_le_length hlt,
        blocks_of_le_length (by omega) hlt, List.cons_append]
      exact congrArg _ (ih _ (by rw [List.length_drop]; omega) _ _ rfl)
    · have hshort : blocks (size + 1) front = [] := blocks_of_length_lt (by omega)
      rw [absorb_of_length_le (by omega), hshort, List.nil_append]

end Absorb

theorem map_ofBits_blocks (size : Nat) (data : Bytes) :
    (blocks (8 * size) (Bytes.bits data)).map Bytes.ofBits = blocks size data := by
  have hcount : (Bytes.bits data).length / (8 * size) = data.length / size := by
    rw [Bytes.length_bits, Nat.mul_div_mul_left _ _ (by omega)]
  rw [blocks, hcount, List.map_map, blocks]
  apply List.map_congr_left
  intro i _
  rw [Function.comp_apply, Nat.mul_assoc, Bytes.drop_bits, Bytes.take_bits, Bytes.ofBits_bits]

end SigScript.Digest
