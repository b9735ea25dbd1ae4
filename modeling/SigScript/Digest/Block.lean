import SigScript.Bytes

/-!
# Input taken block by block

Hash functions consume their input in blocks of a fixed size.  `absorb` folds a step over all whole
blocks of a byte string and returns what is left over.  `absorb_append` says that input may arrive in
pieces: absorbing the rest of one piece in front of the next gives what the joined input gives.
-/

namespace SigScript.Digest

variable {σ : Type}

/-- Folds `step` over the whole blocks of `size + 1` bytes at the front of `data`; returns the state
and the bytes after the last whole block. -/
def absorb (size : Nat) (step : σ → Bytes → σ) (state : σ) (data : Bytes) : σ × Bytes :=
  match _h : data.drop size with
  | [] => (state, data)
  | _ :: rest => absorb size step (step state (data.take (size + 1))) rest
termination_by data.length
decreasing_by
  have := congrArg List.length _h
  simp only [List.length_drop, List.length_cons] at this
  omega

/-! ### Pieces -/

theorem absorb_of_length_le {size : Nat} {step : σ → Bytes → σ} {state : σ} {data : Bytes}
    (h : data.length ≤ size) : absorb size step state data = (state, data) := by
  rw [absorb]
  split
  · rfl
  · rename_i hd
    simp [List.drop_eq_nil_of_le h] at hd

theorem absorb_of_lt_length {size : Nat} {step : σ → Bytes → σ} {state : σ} {data : Bytes}
    (h : size < data.length) :
    absorb size step state data =
      absorb size step (step state (data.take (size + 1))) (data.drop (size + 1)) := by
  rw [absorb]
  split
  · rename_i hd
    simp at hd
    omega
  · rename_i hd
    rw [← List.tail_drop, hd, List.tail_cons]

theorem length_absorb_le (size : Nat) (step : σ → Bytes → σ) (state : σ) (data : Bytes) :
    (absorb size step state data).2.length ≤ size := by
  fun_induction absorb size step state data with
  | case1 state data h => simpa using h
  | case2 state data b rest h ih => exact ih

theorem absorb_append (size : Nat) (step : σ → Bytes → σ) (state : σ) (front back : Bytes) :
    absorb size step state (front ++ back) =
      absorb size step (absorb size step state front).1
        ((absorb size step state front).2 ++ back) := by
  induction h : front.length using Nat.strongRecOn generalizing front state with
  | ind n ih =>
    by_cases hlt : size < front.length
    · rw [absorb_of_lt_length hlt, absorb_of_lt_length (by simp; omega),
        List.take_append_of_le_length (by omega), List.drop_append_of_le_length (by omega)]
      exact ih _ (by simp; omega) _ _ rfl
    · have hfront : absorb size step state front = (state, front) :=
        absorb_of_length_le (by omega)
      rw [hfront]

end SigScript.Digest
