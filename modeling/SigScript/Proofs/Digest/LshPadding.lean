import Mathlib
import SigScript.Proofs.Digest.LshStream

/-!
# Padding of LSH-256

No length is appended to a message, only one 1 bit and zeros.  Still the blocks that are compressed
for a message determine it (`lsh_padding_is_injective`): put together they are the padded message, and
the 1 bit of the padding is the last one there.  To speak about these blocks, a record of them is kept
beside the state (`Recorded`); it changes nothing about the state (`Recorded.toState_run`), and the
chaining value is what compressing the recorded blocks gives (`Recorded.HasAbsorbed.chain_eq`).
-/

namespace SigScript

namespace Lsh

open Bytes Digest

/-! ### The padded message -/

theorem rdropWhile_padBits (m : List Bool) : (padBits m).rdropWhile (fun bit => !bit) = m ++ [true] := by
  have hzeros : ∀ n, (m ++ [true] ++ List.replicate n false).rdropWhile (fun bit => !bit) =
      m ++ [true] := by
    intro n
    induction n with
    | zero =>
      rw [List.replicate_zero, List.append_nil]
      exact List.rdropWhile_concat_neg _ _ _ (by decide)
    | succ n ih =>
      rw [List.replicate_succ', ← List.append_assoc, List.rdropWhile_concat_pos _ _ _ (by decide), ih]
  rw [padBits, List.append_cons, hzeros]

theorem padBits_injective : Function.Injective padBits := by
  intro m m' h
  have hlast := rdropWhile_padBits m
  rw [h, rdropWhile_padBits] at hlast
  exact (List.append_cancel_right hlast).symm

/-- The blocks of the padded message. -/
def paddedBlocks (m : List Bool) : List Bytes := blocks 128 (ofBits (padBits m))

theorem paddedBlocks_bits_append {data : Bytes} {tail : List Bool} (h : tail.length < 8) :
    paddedBlocks (bits data ++ tail) =
      blocks 128 (data ++ octetOfBits (tail ++ [true]) ::
        List.replicate (127 - data.length % 128) 0) := by
  rw [paddedBlocks, padBits_bits_append h, ofBits_bits]

theorem paddedBlocks_injective : Function.Injective paddedBlocks := by
  have hflatten : ∀ m, bits (paddedBlocks m).flatten = padBits m := by
    intro m
    have hlen := length_padBits m
    have hbits : bits (ofBits (padBits m)) = padBits m := bits_ofBits (by omega)
    have hbytes := congrArg List.length hbits
    rw [length_bits] at hbytes
    rw [paddedBlocks, flatten_blocks (by omega), hbits]
  intro m m' h
  apply padBits_injective
  rw [← hflatten, h, hflatten]

/-! ### Recording the blocks -/

/-- Compresses a block into a chaining value, and adds it to a record. -/
def record (log : Words × List Bytes) (block : Bytes) : Words × List Bytes :=
  (compress log.1 block, log.2 ++ [block])

/-- A state with the blocks that have been compressed since it had its initial chaining value. -/
structure Recorded extends State where
  compressed : List Bytes
  deriving DecidableEq, Repr

namespace Recorded

/-- Writes whole bytes behind the filled ones. -/
def write (r : Recorded) (data : Bytes) : Recorded := ⟨r.toState.write data, r.compressed⟩

/-- Compresses the buffer and starts to fill it again. -/
def flush (r : Recorded) : Recorded :=
  let (chain, compressed) := record (r.chain, r.compressed) r.buffer.toList
  ⟨{ r.toState with chain, bitOffset := 0 }, compressed⟩

/-- Compresses the whole blocks at the front of `data` and writes the rest to the buffer. -/
def absorbBlocks (r : Recorded) (data : Bytes) : Recorded :=
  let ((chain, compressed), rest) := Digest.absorb 127 record (r.chain, r.compressed) data
  write ⟨{ r.toState with chain }, compressed⟩ rest

/-- Absorbs whole bytes into a state that ends with a whole byte. -/
def absorb (r : Recorded) (data : Bytes) : Recorded :=
  let gap := 128 - r.bitOffset / 8
  if 0 < r.bitOffset / 8 ∧ gap ≤ data.length then
    (r.write (data.take gap)).flush.absorbBlocks (data.drop gap)
  else r.absorbBlocks data

/-- Absorbs the first `n` bits of `data`. -/
def updateBits (r : Recorded) (data : Bytes) (n : Nat) : Except CryptoError Unit × Recorded :=
  if 8 * data.length < n then (.error (.bitLengthOverflow n data.length), r)
  else if n = 0 then (.ok (), r)
  else if r.bitOffset % 8 ≠ 0 then (.error .unalignedUpdate, r)
  else
    let r := r.absorb (data.take (n / 8))
    if n % 8 = 0 then (.ok (), r)
    else
      let last := data.getD (n / 8) 0 &&& firstBits (n % 8)
      (.ok (), { r with
        buffer := overwrite r.buffer (r.bitOffset / 8) [last]
        bitOffset := r.bitOffset + n % 8 })

/-- The answer to a call, with the state that it passes on.  A reset brings the initial chaining value
back. -/
def answer (r : Recorded) : Call → Except CryptoError Unit × Recorded
  | .update data => r.updateBits data (8 * data.length)
  | .updateBits data n => r.updateBits data n
  | .reset => (.ok (), ⟨r.toState.reset, []⟩)

/-- The state after a call, whether it fails or not. -/
def after (r : Recorded) (call : Call) : Recorded := (r.answer call).2

/-- The state after calls. -/
def run (r : Recorded) (calls : List Call) : Recorded := calls.foldl after r

/-- The compressed blocks, with the last one of the digest. -/
def allBlocks (r : Recorded) : List Bytes :=
  (record (r.chain, r.compressed) r.lastBlock.toList).2

/-! ### The state beside the record -/

/-- The blocks that are recorded are the ones that are compressed. -/
theorem absorb_record (chain : Words) (compressed : List Bytes) (data : Bytes) :
    Digest.absorb 127 record (chain, compressed) data =
      (((Digest.absorb 127 compress chain data).1, compressed ++ blocks 128 data),
        (Digest.absorb 127 compress chain data).2) := by
  induction h : data.length using Nat.strongRecOn generalizing data chain compressed with
  | ind n ih =>
    by_cases hlt : 127 < data.length
    · rw [absorb_of_lt_length hlt, absorb_of_lt_length hlt, blocks_of_le_length (by decide) hlt,
        record, ih _ (by rw [List.length_drop]; omega) _ _ _ rfl, List.append_assoc,
        List.singleton_append]
    · have hshort : blocks 128 data = [] := blocks_of_length_lt (by omega)
      rw [absorb_of_length_le (by omega), absorb_of_length_le (by omega), hshort, List.append_nil]

variable (r : Recorded) (data : Bytes) (n : Nat) (call : Call) (calls : List Call)

@[simp] theorem toState_write : (r.write data).toState = r.toState.write data := rfl

@[simp] theorem compressed_write : (r.write data).compressed = r.compressed := by
  rw [write]

@[simp] theorem toState_flush : r.flush.toState = r.toState.flush := rfl

@[simp] theorem compressed_flush : r.flush.compressed = r.compressed ++ [r.buffer.toList] := rfl

theorem toState_absorbBlocks :
    (r.absorbBlocks data).toState = r.toState.absorbBlocks data := by
  rw [absorbBlocks, absorb_record]
  rfl

theorem compressed_absorbBlocks :
    (r.absorbBlocks data).compressed = r.compressed ++ blocks 128 data := by
  rw [absorbBlocks, absorb_record]
  rfl

@[simp] theorem toState_absorb : (r.absorb data).toState = r.toState.absorb data := by
  simp only [absorb, State.absorb]
  split
  · rw [toState_absorbBlocks, toState_flush, toState_write]
  · rw [toState_absorbBlocks]

theorem map_toState_updateBits :
    (r.updateBits data n).map id toState = r.toState.updateBits data n := by
  simp only [updateBits, State.updateBits]
  split_ifs
  · rfl
  · rfl
  · rfl
  · simp only [Prod.map_apply, id_eq, toState_absorb]
  · simp only [Prod.map_apply, id_eq, toState_absorb]

theorem map_toState_answer : (r.answer call).map id toState = call.answer r.toState := by
  cases call with
  | update data => exact map_toState_updateBits r data _
  | updateBits data n => exact map_toState_updateBits r data n
  | reset => rfl

/-- A call that fails leaves the record as it is, too. -/
theorem after_of_error {e : CryptoError} (h : (r.answer call).1 = .error e) : r.after call = r := by
  have hupdate : ∀ {data n}, (r.updateBits data n).1 = .error e → (r.updateBits data n).2 = r := by
    intro data n h
    unfold updateBits at h ⊢
    split_ifs at h ⊢
    · rfl
    · rfl
  cases call with
  | update data => exact hupdate h
  | updateBits data n => exact hupdate h
  | reset => cases h

theorem toState_after : (r.after call).toState = call.after r.toState := by
  rw [Call.after, ← map_toState_answer]
  rfl

/-- The record changes nothing about the state. -/
theorem toState_run : (r.run calls).toState = Call.run r.toState calls := by
  induction calls generalizing r with
  | nil => rfl
  | cons call calls ih =>
    rw [run, List.foldl_cons, ← run, ih, toState_after]
    rfl

/-! ### What is recorded -/

section Recording

variable {r : Recorded} {outputBits : Nat} {front data : Bytes} {tail m : List Bool}

theorem compressed_absorb (h : r.toState.Buffers front) (hfront : front.length ≤ 127)
    (more : Bytes) : (r.absorb more).compressed = r.compressed ++ blocks 128 (front ++ more) := by
  rw [absorb, h.bitOffset_div]
  by_cases hfill : 0 < front.length ∧ 128 - front.length ≤ more.length
  · have hle : front.length ≤ 128 := by omega
    have hcut : 128 ≤ (front ++ more).length := by
      rw [List.length_append]
      omega
    rw [if_pos hfill, compressed_absorbBlocks, compressed_flush, compressed_write, toState_write,
      h.toList_fill hle hfill.2, blocks_of_le_length (by decide) hcut, State.drop_fill hle,
      List.append_assoc, List.singleton_append]
  · rw [if_neg hfill, compressed_absorbBlocks]
    by_cases hnil : front = []
    · rw [hnil, List.nil_append]
    · have hpos := List.length_pos_iff.2 hnil
      have hmore : blocks 128 more = [] := blocks_of_length_lt (by omega)
      have hjoined : blocks 128 (front ++ more) = [] :=
        blocks_of_length_lt (by rw [List.length_append]; omega)
      rw [hmore, hjoined]

theorem blocks_append_absorbed (outputBits : Nat) (data more : Bytes) :
    blocks 128 (data ++ more) =
      blocks 128 data ++ blocks 128 ((absorbed outputBits data).2 ++ more) :=
  blocks_append (initialChain outputBits) data more

/-- The state has absorbed whole bytes and the bits after them, and their whole blocks are recorded. -/
structure Holds (outputBits : Nat) (data : Bytes) (tail : List Bool) (r : Recorded) : Prop where
  state : r.toState.Holds outputBits data tail
  compressed_eq : r.compressed = blocks 128 data

theorem Holds.compressed_absorb (h : r.Holds outputBits data []) (more : Bytes) :
    (r.absorb more).compressed = blocks 128 (data ++ more) := by
  obtain ⟨-, -, hbuffers⟩ := State.holds_nil_iff.1 h.state
  rw [Recorded.compressed_absorb hbuffers (length_absorbed_le outputBits data), h.compressed_eq,
    ← blocks_append_absorbed]

theorem compressed_updateBits {n : Nat} (hn : n ≤ 8 * data.length) (hzero : n ≠ 0)
    (haligned : r.bitOffset % 8 = 0) :
    (r.updateBits data n).2.compressed = (r.absorb (data.take (n / 8))).compressed := by
  rw [updateBits, if_neg (by omega), if_neg hzero, if_neg (not_not.2 haligned)]
  dsimp only
  split_ifs
  · rfl
  · rfl

/-- After whole bytes any bits are accepted. -/
theorem Holds.updateBits {n : Nat} (h : r.Holds outputBits front []) (hn : n ≤ 8 * data.length)
    (hzero : n ≠ 0) :
    (r.updateBits data n).2.Holds outputBits (front ++ data.take (n / 8))
      ((octetBits (data.getD (n / 8) 0)).take (n % 8)) := by
  have hstate := h.state.updateBits hn hzero
  rw [← map_toState_updateBits] at hstate
  refine ⟨hstate, ?_⟩
  rw [compressed_updateBits hn hzero h.state.bitOffset_mod, h.compressed_absorb]

/-- The state has absorbed the message `m`, and the whole blocks of the message are recorded. -/
def HasAbsorbed (outputBits : Nat) (m : List Bool) (r : Recorded) : Prop :=
  ∃ data tail, m = bits data ++ tail ∧ r.Holds outputBits data tail

theorem HasAbsorbed.toState (h : r.HasAbsorbed outputBits m) :
    r.toState.HasAbsorbed outputBits m := by
  obtain ⟨data, tail, hm, h⟩ := h
  exact ⟨data, tail, hm, h.state⟩

theorem HasAbsorbed.updateBits {n : Nat} (h : r.HasAbsorbed outputBits m)
    (hn : refusalOfBits m data n = none) :
    (r.updateBits data n).2.HasAbsorbed outputBits (m ++ (bits data).take n) := by
  by_cases hzero : n = 0
  · rw [Recorded.updateBits, if_neg (by omega), if_pos hzero, hzero, List.take_zero, List.append_nil]
    exact h
  · obtain ⟨front, tail, rfl, h⟩ := h
    obtain ⟨rfl, hfits, hextend⟩ := extend_of_refusalOfBits h.state.length_tail hn hzero
    exact ⟨_, _, hextend, h.updateBits hfits hzero⟩

theorem hasAbsorbed_initial (outputBits : Nat) :
    HasAbsorbed outputBits [] ⟨.initial outputBits, []⟩ :=
  ⟨[], [], rfl, State.holds_initial outputBits, (blocks_of_length_lt (by decide)).symm⟩

theorem HasAbsorbed.extend (h : r.HasAbsorbed outputBits m) {call : Call}
    (hcall : call.refusal m = none) : (r.after call).HasAbsorbed outputBits (call.extend m) := by
  cases call with
  | update data =>
    rw [Call.extend, ← take_bits_length data]
    exact h.updateBits hcall
  | updateBits data n => exact h.updateBits hcall
  | reset =>
    obtain ⟨data, tail, -, h⟩ := h
    rw [after, answer, State.reset, h.state.outputBits_eq]
    exact hasAbsorbed_initial outputBits

theorem HasAbsorbed.after (h : r.HasAbsorbed outputBits m) (call : Call) :
    (r.after call).HasAbsorbed outputBits (call.next m) := by
  cases hcall : call.refusal m with
  | some e =>
    have herror := (h.toState.answer_eq_error_iff call e).2 hcall
    rw [← map_toState_answer] at herror
    rw [after_of_error r call herror, Call.next, hcall]
    exact h
  | none =>
    rw [Call.next, hcall]
    exact h.extend hcall

theorem HasAbsorbed.run (h : r.HasAbsorbed outputBits m) (calls : List Call) :
    (r.run calls).HasAbsorbed outputBits (calls.foldl Call.next m) := by
  induction calls generalizing r m with
  | nil => exact h
  | cons call calls ih => exact ih (h.after call)

/-! ### All blocks of a digest -/

theorem HasAbsorbed.chain_eq (h : r.HasAbsorbed outputBits m) :
    r.chain = r.compressed.foldl compress (initialChain outputBits) := by
  obtain ⟨data, tail, -, h⟩ := h
  rw [h.compressed_eq, ← absorb_fst, h.state.chain_eq, absorbed]

theorem HasAbsorbed.finish (h : r.HasAbsorbed outputBits m) :
    r.finish =
      truncate outputBits (foldChain (r.allBlocks.foldl compress (initialChain outputBits))) := by
  have hchain := h.chain_eq
  obtain ⟨data, tail, -, h⟩ := h
  rw [State.finish, h.state.outputBits_eq, hchain, allBlocks, record, List.foldl_append]
  rfl

/-- The blocks that are compressed up to the digest are those of the padded message. -/
theorem HasAbsorbed.allBlocks (h : r.HasAbsorbed outputBits m) : r.allBlocks = paddedBlocks m := by
  obtain ⟨data, tail, rfl, h⟩ := h
  have hlen : (absorbed outputBits data).2.length = data.length % 128 := length_absorb_snd ..
  have hblock : ((absorbed outputBits data).2 ++ octetOfBits (tail ++ [true]) ::
      List.replicate (127 - data.length % 128) 0).length = 128 := by
    rw [List.length_append, List.length_cons, List.length_replicate]
    omega
  rw [Recorded.allBlocks, record, h.state.lastBlock, h.compressed_eq, hlen,
    paddedBlocks_bits_append h.state.length_tail, blocks_append_absorbed outputBits,
    blocks_of_length_eq (by decide) hblock]

end Recording

end Recorded

theorem State.eq_initial_of_new {outputBits : Nat} {s : State} (h : State.new outputBits = .ok s) :
    s = .initial outputBits :=
  (State.new_eq_ok_iff.1 h).2

end Lsh

/-- The blocks that are compressed for a message, from the initial chaining value up to the digest,
belong to this message alone.  They are recorded beside the state of a computation, which goes on as
it does without the record, and the digest is made from them. -/
theorem lsh_padding_is_injective {outputBits : Nat} {s : Lsh.State}
    (hs : Lsh.State.new outputBits = .ok s) :
    (∀ calls, (Lsh.Recorded.run ⟨s, []⟩ calls).toState = Lsh.Call.run s calls ∧
      (Lsh.Call.run s calls).finish = Lsh.truncate outputBits (Lsh.foldChain
        ((Lsh.Recorded.run ⟨s, []⟩ calls).allBlocks.foldl Lsh.compress s.chain))) ∧
    ∀ calls calls',
      (Lsh.Recorded.run ⟨s, []⟩ calls).allBlocks = (Lsh.Recorded.run ⟨s, []⟩ calls').allBlocks ↔
        Lsh.Call.message calls = Lsh.Call.message calls' := by
  obtain rfl := Lsh.State.eq_initial_of_new hs
  have hrun : ∀ calls, (Lsh.Recorded.run ⟨.initial outputBits, []⟩ calls).HasAbsorbed outputBits
      (Lsh.Call.message calls) := (Lsh.Recorded.hasAbsorbed_initial outputBits).run
  refine ⟨fun calls => ⟨Lsh.Recorded.toState_run _ calls, ?_⟩, fun calls calls' => ?_⟩
  · have hdigest := (hrun calls).finish
    rw [Lsh.Recorded.toState_run] at hdigest
    exact hdigest
  · rw [(hrun calls).allBlocks, (hrun calls').allBlocks, Lsh.paddedBlocks_injective.eq_iff]

/-- The same two bytes in other pieces give the same blocks.  The blocks differ when the last bit is
left out, although that bit is 0. -/
theorem lsh_padding_is_injective_twelve :
    Lsh.State.new 12 = .ok (.initial 12) ∧
    (Lsh.Recorded.run ⟨.initial 12, []⟩ [.update [1], .updateBits [2, 0xff] 8]).allBlocks =
      (Lsh.Recorded.run ⟨.initial 12, []⟩ [.update [1, 2]]).allBlocks ∧
    (Lsh.Recorded.run ⟨.initial 12, []⟩ [.updateBits [1, 2] 15]).allBlocks ≠
      (Lsh.Recorded.run ⟨.initial 12, []⟩ [.update [1, 2]]).allBlocks := by
  have hnew : Lsh.State.new 12 = .ok (.initial 12) := rfl
  obtain ⟨-, hblocks⟩ := lsh_padding_is_injective hnew
  refine ⟨hnew, (hblocks _ _).2 (by decide), ?_⟩
  rw [Ne, hblocks]
  decide

end SigScript
