import Mathlib
import SigScript.Proofs.Digest.LshBuffer
import SigScript.Proofs.Failure

/-!
# Streams of LSH-256

However a message reaches a state, the digest is that of the padded message in one go
(`digestOfBits`).  A call either fails and leaves the state as it is (`Call.after_of_error`), or adds its
bits (`State.HasAbsorbed.after`); so any sequence of calls ends with the digest of its message.
-/

namespace SigScript.Lsh

open Bytes Digest

/-! ### The specification -/

/-- The padded message: one 1 bit and the fewest zeros that give a multiple of 1024 bits. -/
def padBits (m : List Bool) : List Bool :=
  m ++ true :: List.replicate (1023 - m.length % 1024) false

theorem length_padBits (m : List Bool) : (padBits m).length = 1024 * (m.length / 1024 + 1) := by
  rw [padBits, List.length_append, List.length_cons, List.length_replicate]
  omega

/-- The chaining value after all blocks of the padded message. -/
def finalChain (outputBits : Nat) (m : List Bool) : Words :=
  (blocks 1024 (padBits m)).foldl (fun chain block => compress chain (ofBits block))
    (initialChain outputBits)

/-- The digest of a message of bits: the first `outputBits` bits of the folded chaining value, filled
up with zeros to a whole byte. -/
def digestOfBits (outputBits : Nat) (m : List Bool) : Bytes :=
  ofBits ((bits (foldChain (finalChain outputBits m))).take outputBits)

/-- A call that changes a state. -/
inductive Call where
  | update (data : Bytes)
  | updateBits (data : Bytes) (n : Nat)
  | reset
  deriving DecidableEq, Repr

/-- Why `n` bits of `data` are refused after the message `m`. -/
def refusalOfBits (m : List Bool) (data : Bytes) (n : Nat) : Option CryptoError :=
  if 8 * data.length < n then some (.bitLengthOverflow n data.length)
  else if 0 < n ∧ m.length % 8 ≠ 0 then some .unalignedUpdate
  else none

theorem refusalOfBits_eq_none_iff {m : List Bool} {data : Bytes} {n : Nat} :
    refusalOfBits m data n = none ↔ n ≤ 8 * data.length ∧ (n = 0 ∨ m.length % 8 = 0) := by
  rw [refusalOfBits]
  by_cases hover : 8 * data.length < n
  · rw [if_pos hover]
    exact iff_of_false (by simp) (by omega)
  · rw [if_neg hover]
    by_cases haligned : 0 < n ∧ m.length % 8 ≠ 0
    · rw [if_pos haligned]
      exact iff_of_false (by simp) (by omega)
    · rw [if_neg haligned]
      exact iff_of_true rfl (by omega)

namespace Call

/-- Why a call is refused after the message `m`. -/
def refusal (m : List Bool) : Call → Option CryptoError
  | update data => refusalOfBits m data (8 * data.length)
  | updateBits data n => refusalOfBits m data n
  | reset => none

/-- The message after a call that is not refused. -/
def extend (m : List Bool) : Call → List Bool
  | update data => m ++ bits data
  | updateBits data n => m ++ (bits data).take n
  | reset => []

/-- The message after a call. -/
def next (m : List Bool) (call : Call) : List Bool :=
  if (call.refusal m).isNone then call.extend m else m

/-- The message after calls, beginning with no message. -/
def message (calls : List Call) : List Bool := calls.foldl next []

/-- The answer to a call, with the state that it passes on. -/
def answer (s : State) : Call → Except CryptoError Unit × State
  | update data => s.update data
  | updateBits data n => s.updateBits data n
  | reset => (.ok (), s.reset)

/-- The state after a call, whether it fails or not. -/
def after (s : State) (call : Call) : State := (call.answer s).2

/-- The state after calls. -/
def run (s : State) (calls : List Call) : State := calls.foldl after s

end Call

/-! ### The digest of a state -/

theorem truncate_eq {n : Nat} {bs : Bytes} (hn : n ≤ 8 * bs.length) :
    truncate n bs = ofBits ((bits bs).take n) := by
  rw [take_bits_eq hn, ofBits_bits_append, truncate]
  congr 1
  by_cases hzero : n % 8 = 0
  · rw [if_pos hzero, hzero, List.take_zero, ofBits]
  · have hlen := length_take_octetBits (bs.getD (n / 8) 0) (show n % 8 ≤ 8 by omega)
    rw [if_neg hzero, ofBits_of_length_le (List.length_pos_iff.1 (by omega)) (by omega),
      octetOfBits_take _ (by omega)]

theorem padBits_bits_append {data : Bytes} {tail : List Bool} (h : tail.length < 8) :
    padBits (bits data ++ tail) =
      bits (data ++ octetOfBits (tail ++ [true]) :: List.replicate (127 - data.length % 128) 0) := by
  have hlen : (tail ++ [true]).length = tail.length + 1 := List.length_append
  have hzeros : 1023 - (bits data ++ tail).length % 1024 =
      (8 - (tail ++ [true]).length) + 8 * (127 - data.length % 128) := by
    rw [List.length_append, length_bits, hlen]
    omega
  -- The first of the zeros fill the byte that the message ends in, the others the block.
  rw [padBits, hzeros, List.replicate_add, bits_append, bits_cons, octetBits_octetOfBits (by omega),
    bits_replicate_zero]
  simp

/-- All whole blocks of the padded message but the last are blocks of the message. -/
theorem finalChain_bits_append (outputBits : Nat) {data : Bytes} {tail : List Bool}
    (h : tail.length < 8) :
    finalChain outputBits (bits data ++ tail) =
      compress (absorbed outputBits data).1
        ((absorbed outputBits data).2 ++ octetOfBits (tail ++ [true]) ::
          List.replicate (127 - (absorbed outputBits data).2.length) 0) := by
  have hlen : (absorbed outputBits data).2.length = data.length % 128 := length_absorb_snd ..
  have hblocks := map_ofBits_blocks 128
    (data ++ octetOfBits (tail ++ [true]) :: List.replicate (127 - data.length % 128) 0)
  have hblock : ((absorbed outputBits data).2 ++ octetOfBits (tail ++ [true]) ::
      List.replicate (127 - data.length % 128) 0).length = 127 + 1 := by
    rw [List.length_append, List.length_cons, List.length_replicate]
    omega
  rw [finalChain, padBits_bits_append h, ← List.foldl_map, hblocks, ← absorb_fst, hlen]
  have happend := absorbed_append outputBits data
    (octetOfBits (tail ++ [true]) :: List.replicate (127 - data.length % 128) 0)
  rw [absorb_of_length_eq hblock] at happend
  exact congrArg Prod.fst happend

theorem length_foldChain (chain : Words) : (foldChain chain).length = 32 := by
  simp [foldChain, bytesLE32]

theorem State.Holds.finish {outputBits : Nat} {data : Bytes} {tail : List Bool} {s : State}
    (h : s.Holds outputBits data tail) (hbits : outputBits ≤ 256) :
    s.finish = digestOfBits outputBits (bits data ++ tail) := by
  have hle : outputBits ≤ 8 * (foldChain (finalChain outputBits (bits data ++ tail))).length := by
    rw [length_foldChain]
    exact hbits
  rw [digestOfBits, ← truncate_eq hle, finalChain_bits_append outputBits h.length_tail, State.finish,
    h.outputBits_eq, h.chain_eq, h.lastBlock]

/-! ### One call -/

/-- The state has absorbed the message `m`. -/
def State.HasAbsorbed (outputBits : Nat) (m : List Bool) (s : State) : Prop :=
  ∃ data tail, m = bits data ++ tail ∧ s.Holds outputBits data tail

section Step

variable {outputBits : Nat} {m : List Bool} {s : State}

theorem State.HasAbsorbed.bitOffset_mod (h : s.HasAbsorbed outputBits m) :
    s.bitOffset % 8 = m.length % 8 := by
  obtain ⟨data, tail, rfl, h⟩ := h
  have hlt := h.length_tail
  rw [h.bitOffset_mod, List.length_append, length_bits]
  omega

/-- Both failures are noticed before anything is absorbed. -/
theorem State.updateBits_of_error {data : Bytes} {n : Nat} {e : CryptoError}
    (h : (s.updateBits data n).1 = .error e) : (s.updateBits data n).2 = s := by
  unfold updateBits at h ⊢
  split_ifs at h ⊢
  · rfl
  · rfl

theorem Call.after_of_error {call : Call} {e : CryptoError} (h : (call.answer s).1 = .error e) :
    call.after s = s := by
  cases call with
  | update data => exact State.updateBits_of_error h
  | updateBits data n => exact State.updateBits_of_error h
  | reset => cases h

theorem State.HasAbsorbed.updateBits_eq_error_iff (h : s.HasAbsorbed outputBits m) {data : Bytes}
    {n : Nat} {e : CryptoError} :
    (s.updateBits data n).1 = .error e ↔ refusalOfBits m data n = some e := by
  rw [updateBits, refusalOfBits, h.bitOffset_mod]
  by_cases hover : 8 * data.length < n
  · simp [hover]
  · by_cases hzero : n = 0
    · simp [hzero]
    · by_cases haligned : m.length % 8 = 0
      · by_cases hwhole : n % 8 = 0
        · simp [hover, hzero, haligned, hwhole]
        · simp [hover, hzero, haligned, hwhole]
      · simp [hover, hzero, haligned, Nat.pos_iff_ne_zero]

/-- After whole bytes any bits are accepted. -/
theorem State.Holds.updateBits {front data : Bytes} {n : Nat} (h : s.Holds outputBits front [])
    (hn : n ≤ 8 * data.length) (hzero : n ≠ 0) :
    (s.updateBits data n).2.Holds outputBits (front ++ data.take (n / 8))
      ((octetBits (data.getD (n / 8) 0)).take (n % 8)) := by
  have hoffset : s.bitOffset % 8 = 0 := h.bitOffset_mod
  have hwhole := h.absorb (data.take (n / 8))
  rw [State.updateBits, if_neg (by omega), if_neg hzero, if_neg (not_not.2 hoffset)]
  by_cases hpart : n % 8 = 0
  · rw [if_pos hpart, hpart, List.take_zero]
    exact hwhole
  · have hlen := length_take_octetBits (data.getD (n / 8) 0) (show n % 8 ≤ 8 by omega)
    have hne : (octetBits (data.getD (n / 8) 0)).take (n % 8) ≠ [] :=
      List.length_pos_iff.1 (by omega)
    have htail := hwhole.append_tail hne (by omega)
    rw [octetOfBits_take _ (by omega), hlen] at htail
    rw [if_neg hpart]
    exact htail

/-- Bits that are not refused come after whole bytes, and make whole bytes and bits after them. -/
theorem extend_of_refusalOfBits {front data : Bytes} {tail : List Bool} {n : Nat}
    (htail : tail.length < 8) (hn : refusalOfBits (bits front ++ tail) data n = none) (hzero : n ≠ 0) :
    tail = [] ∧ n ≤ 8 * data.length ∧
      bits front ++ tail ++ (bits data).take n =
        bits (front ++ data.take (n / 8)) ++ (octetBits (data.getD (n / 8) 0)).take (n % 8) := by
  obtain ⟨hfits, haligned⟩ := refusalOfBits_eq_none_iff.1 hn
  rw [List.length_append, length_bits] at haligned
  obtain rfl : tail = [] := List.eq_nil_of_length_eq_zero (by omega)
  refine ⟨rfl, hfits, ?_⟩
  rw [take_bits_eq hfits, bits_append, List.append_nil, List.append_assoc]

/-- Bits that are not refused are absorbed. -/
theorem State.HasAbsorbed.updateBits (h : s.HasAbsorbed outputBits m) {data : Bytes} {n : Nat}
    (hn : refusalOfBits m data n = none) :
    (s.updateBits data n).2.HasAbsorbed outputBits (m ++ (bits data).take n) := by
  by_cases hzero : n = 0
  · rw [State.updateBits, if_neg (by omega), if_pos hzero, hzero, List.take_zero, List.append_nil]
    exact h
  · obtain ⟨front, tail, rfl, h⟩ := h
    obtain ⟨rfl, hfits, hextend⟩ := extend_of_refusalOfBits h.length_tail hn hzero
    exact ⟨_, _, hextend, h.updateBits hfits hzero⟩

theorem State.HasAbsorbed.reset (h : s.HasAbsorbed outputBits m) :
    s.reset.HasAbsorbed outputBits [] := by
  obtain ⟨data, tail, -, h⟩ := h
  rw [State.reset, h.outputBits_eq]
  exact ⟨[], [], rfl, State.holds_initial outputBits⟩

theorem State.HasAbsorbed.answer_eq_error_iff (h : s.HasAbsorbed outputBits m) (call : Call)
    (e : CryptoError) : (call.answer s).1 = .error e ↔ call.refusal m = some e := by
  cases call with
  | update data => exact h.updateBits_eq_error_iff
  | updateBits data n => exact h.updateBits_eq_error_iff
  | reset => simp [Call.answer, Call.refusal]

theorem State.HasAbsorbed.extend (h : s.HasAbsorbed outputBits m) {call : Call}
    (hcall : call.refusal m = none) : (call.after s).HasAbsorbed outputBits (call.extend m) := by
  cases call with
  | update data =>
    rw [Call.extend, ← take_bits_length data]
    exact h.updateBits hcall
  | updateBits data n => exact h.updateBits hcall
  | reset => exact h.reset

theorem State.HasAbsorbed.after (h : s.HasAbsorbed outputBits m) (call : Call) :
    (call.after s).HasAbsorbed outputBits (call.next m) := by
  cases hcall : call.refusal m with
  | some e =>
    rw [Call.after_of_error ((h.answer_eq_error_iff call e).2 hcall), Call.next, hcall]
    exact h
  | none =>
    rw [Call.next, hcall]
    exact h.extend hcall

/-! ### Streams -/

theorem State.HasAbsorbed.run (h : s.HasAbsorbed outputBits m) (calls : List Call) :
    (Call.run s calls).HasAbsorbed outputBits (calls.foldl Call.next m) := by
  induction calls generalizing s m with
  | nil => exact h
  | cons call calls ih => exact ih (h.after call)

theorem State.HasAbsorbed.finish (h : s.HasAbsorbed outputBits m) (hbits : outputBits ≤ 256) :
    s.finish = digestOfBits outputBits m := by
  obtain ⟨data, tail, rfl, h⟩ := h
  exact h.finish hbits

theorem hasAbsorbed_initial (outputBits : Nat) :
    (State.initial outputBits).HasAbsorbed outputBits [] :=
  ⟨[], [], rfl, State.holds_initial outputBits⟩

end Step

theorem State.Holds.foldl_absorb {outputBits : Nat} {data : Bytes} {s : State}
    (h : s.Holds outputBits data []) (chunks : List Bytes) :
    (chunks.foldl State.absorb s).Holds outputBits (data ++ chunks.flatten) [] := by
  induction chunks generalizing s data with
  | nil =>
    rw [List.flatten_nil, List.append_nil]
    exact h
  | cons chunk chunks ih =>
    rw [List.flatten_cons, ← List.append_assoc]
    exact ih (h.absorb chunk)

theorem finish_foldl_absorb {outputBits : Nat} (hbits : outputBits ≤ 256) (chunks : List Bytes) :
    (chunks.foldl State.absorb (.initial outputBits)).finish =
      digestOfBits outputBits (bits chunks.flatten) := by
  have h := ((State.holds_initial outputBits).foldl_absorb chunks).finish hbits
  rw [List.nil_append, List.append_nil] at h
  exact h

end SigScript.Lsh

namespace SigScript

end SigScript
