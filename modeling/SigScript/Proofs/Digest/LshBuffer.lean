import Mathlib
import SigScript.Digest.Lsh
import SigScript.Proofs.Digest.Blocks

/-!
# The buffer of LSH-256

The invariant `State.Holds` names the whole bytes and the last bits that a state has absorbed: the
chaining value is that after all whole blocks, and the buffer begins with what is left.  Nothing is
known about the bytes behind that, which earlier blocks have left there.  Absorbing keeps the
invariant, whether it fills the buffer or not (`State.Holds.absorb`), and the last block is what is
left with its padding (`State.Holds.lastBlock`).
-/

namespace SigScript.Lsh

open Bytes Digest

/-! ### Masks and the buffer -/

theorem octetOfBits_take (b : UInt8) {n : Nat} (hn : n < 8) :
    octetOfBits ((octetBits b).take n) = b &&& firstBits n := by
  have hmask : ∀ n < 8, ∀ i < 8, (firstBits n).toBitVec.getMsbD i = decide (i < n) := by decide
  apply octet_ext
  intro i hi
  rw [getMsbD_octetOfBits _ hi, UInt8.toBitVec_and, BitVec.getMsbD_and, hmask n hn i hi]
  by_cases hlt : i < n
  · have hb := getD_octetBits b hi
    rw [decide_eq_true hlt, Bool.and_true, ← hb, List.getD_eq_getElem?_getD,
      List.getElem?_take_of_lt hlt, List.getD_eq_getElem?_getD]
  · rw [decide_eq_false hlt, Bool.and_false, List.getD_eq_default]
    rw [List.length_take]
    omega

/-- The 1 bit of the padding behind bits that do not fill a byte. -/
theorem octetOfBits_or {tail : List Bool} (h : tail.length < 8) :
    octetOfBits tail ||| 0x80 >>> UInt8.ofNat tail.length = octetOfBits (tail ++ [true]) := by
  have hbit : ∀ n < 8, ∀ i < 8,
      ((0x80 : UInt8) >>> UInt8.ofNat n).toBitVec.getMsbD i = decide (i = n) := by decide
  apply octet_ext
  intro i hi
  rw [UInt8.toBitVec_or, BitVec.getMsbD_or, hbit _ h i hi, getMsbD_octetOfBits _ hi,
    getMsbD_octetOfBits _ hi]
  by_cases hlt : i < tail.length
  · rw [decide_eq_false hlt.ne, Bool.or_false, List.getD_append _ _ _ _ hlt]
  · rw [List.getD_append_right _ _ _ _ (by omega), List.getD_eq_default _ _ (by omega),
      Bool.false_or]
    by_cases heq : i = tail.length
    · rw [decide_eq_true heq, heq, Nat.sub_self]
      rfl
    · rw [decide_eq_false heq, List.getD_eq_default]
      rw [List.length_singleton]
      omega

/-! ### Whole bytes in the buffer -/

theorem getElem_overwrite (block : Block) (start : Nat) (bytes : Bytes) {i : Nat} (hi : i < 128) :
    (overwrite block start bytes)[i] =
      if start ≤ i then bytes.getD (i - start) block[i] else block[i] := by
  have hget : block.get ⟨i, hi⟩ = block[i] := rfl
  simp only [overwrite, Vector.getElem_ofFn]
  rw [hget, List.getD_eq_getElem?_getD, ← List.getElem?_toArray, Array.getD_eq_getD_getElem?]

theorem overwrite_singleton (block : Block) {i : Nat} (hi : i < 128) (b : UInt8) :
    overwrite block i [b] = block.set i b := by
  apply Vector.ext
  intro j hj
  rw [getElem_overwrite]
  by_cases heq : i = j
  · subst heq
    rw [if_pos le_rfl, Nat.sub_self, Vector.getElem_set_self]
    rfl
  · rw [Vector.getElem_set_ne _ _ heq]
    by_cases hle : i ≤ j
    · rw [if_pos hle, List.getD_eq_default _ _ (by rw [List.length_singleton]; omega)]
    · rw [if_neg hle]

/-- A byte and the bytes behind it can be written one after the other. -/
theorem overwrite_overwrite (block : Block) (i : Nat) (b : UInt8) (bytes : Bytes) :
    overwrite (overwrite block i [b]) (i + 1) bytes = overwrite block i (b :: bytes) := by
  apply Vector.ext
  intro j hj
  simp only [getElem_overwrite]
  by_cases hlt : i < j
  · obtain ⟨k, rfl⟩ : ∃ k, j = i + 1 + k := Nat.exists_eq_add_of_le hlt
    have hsub : i + 1 + k - i = k + 1 := by omega
    rw [if_pos (by omega), if_pos (by omega), if_pos (by omega), hsub, Nat.add_sub_cancel_left]
    rfl
  · rw [if_neg (by omega)]
    by_cases heq : i = j
    · rw [heq, Nat.sub_self]
      rfl
    · rw [if_neg (by omega), if_neg (by omega)]

/-- Bytes that are written behind an initial part leave it as it is. -/
theorem append_prefix_overwrite {block : Block} {front bytes : Bytes} (h : front <+: block.toList)
    (hfit : front.length + bytes.length ≤ 128) :
    front ++ bytes <+: (overwrite block front.length bytes).toList := by
  rw [List.prefix_iff_getElem] at h ⊢
  obtain ⟨hle, hfront⟩ := h
  refine ⟨by simpa using hfit, fun i hi => ?_⟩
  rw [List.length_append] at hi
  rw [Vector.getElem_toList, getElem_overwrite]
  by_cases hlt : i < front.length
  · rw [List.getElem_append_left hlt, if_neg (by omega), hfront i hlt, Vector.getElem_toList]
  · rw [List.getElem_append_right (by omega), if_pos (by omega),
      List.getD_eq_getElem _ _ (by omega)]

theorem State.drop_fill {front more : Bytes} (hle : front.length ≤ 128) :
    (front ++ more).drop 128 = more.drop (128 - front.length) := by
  rw [List.drop_append, List.drop_eq_nil_of_le hle, List.nil_append]

/-- The buffer is filled with the whole bytes `front`.  What lies behind them does not matter. -/
structure State.Buffers (front : Bytes) (s : State) : Prop where
  bitOffset_eq : s.bitOffset = 8 * front.length
  isPrefix : front <+: s.buffer.toList

namespace State.Buffers

variable {front more : Bytes} {s : State}

theorem bitOffset_div (h : s.Buffers front) : s.bitOffset / 8 = front.length := by
  rw [h.bitOffset_eq, Nat.mul_div_cancel_left _ (by decide)]

theorem write (h : s.Buffers front) (hfit : front.length + more.length ≤ 128) :
    (s.write more).Buffers (front ++ more) := by
  refine ⟨?_, ?_⟩
  · rw [State.write, h.bitOffset_eq, List.length_append, Nat.mul_add]
  · rw [State.write, h.bitOffset_div]
    exact append_prefix_overwrite h.isPrefix hfit

theorem flush (s : State) : s.flush.Buffers [] := ⟨rfl, List.nil_prefix⟩

theorem toList_eq (h : s.Buffers front) (hfull : front.length = 128) : s.buffer.toList = front := by
  refine (h.isPrefix.eq_of_length ?_).symm
  rw [hfull, Vector.length_toList]

/-- Into an empty buffer, or fewer bytes than the buffer has room for. -/
theorem absorbBlocks (h : s.Buffers front) (hroom : front = [] ∨ front.length + more.length ≤ 127) :
    (s.absorbBlocks more).chain = (Digest.absorb 127 compress s.chain (front ++ more)).1 ∧
      (s.absorbBlocks more).Buffers (Digest.absorb 127 compress s.chain (front ++ more)).2 := by
  have hjoined : Digest.absorb 127 compress s.chain (front ++ more) =
        ((Digest.absorb 127 compress s.chain more).1,
          front ++ (Digest.absorb 127 compress s.chain more).2) ∧
      front.length + (Digest.absorb 127 compress s.chain more).2.length ≤ 127 := by
    obtain rfl | hshort := hroom
    · refine ⟨rfl, ?_⟩
      rw [List.length_nil, Nat.zero_add]
      exact length_absorb_le ..
    · have hmore : Digest.absorb 127 compress s.chain more = (s.chain, more) :=
        absorb_of_length_le (by omega)
      rw [hmore]
      exact ⟨absorb_of_length_le (by rw [List.length_append]; exact hshort), hshort⟩
  rw [hjoined.1]
  refine ⟨rfl, ?_⟩
  have hchain : State.Buffers front
      { s with chain := (Digest.absorb 127 compress s.chain more).1 } := ⟨h.bitOffset_eq, h.isPrefix⟩
  exact hchain.write (by omega)

/-- The bytes that there is room for fill the buffer to the first block of the joined bytes. -/
theorem toList_fill (h : s.Buffers front) (hle : front.length ≤ 128)
    (hfill : 128 - front.length ≤ more.length) :
    (s.write (more.take (128 - front.length))).buffer.toList = (front ++ more).take 128 := by
  have htake : (more.take (128 - front.length)).length = 128 - front.length :=
    List.length_take_of_le hfill
  have hblock : (s.write (more.take (128 - front.length))).buffer.toList =
      front ++ more.take (128 - front.length) := by
    apply (h.write (by omega)).toList_eq
    rw [List.length_append]
    omega
  rw [hblock, List.take_append, List.take_of_length_le hle]

/-- Whether the buffer is filled up and compressed or not, bytes are absorbed as if they followed what
it holds. -/
theorem absorb (h : s.Buffers front) (hfront : front.length ≤ 127) (more : Bytes) :
    (s.absorb more).chain = (Digest.absorb 127 compress s.chain (front ++ more)).1 ∧
      (s.absorb more).Buffers (Digest.absorb 127 compress s.chain (front ++ more)).2 := by
  rw [State.absorb, h.bitOffset_div]
  by_cases hfill : 0 < front.length ∧ 128 - front.length ≤ more.length
  · have hcut : 127 < (front ++ more).length := by
      rw [List.length_append]
      omega
    have hle : front.length ≤ 128 := by omega
    have hchain : (s.write (more.take (128 - front.length))).flush.chain =
        compress s.chain ((front ++ more).take 128) := by
      rw [State.flush, h.toList_fill hle hfill.2, State.write]
    -- The filled buffer is the first block of the joined bytes.
    rw [if_pos hfill, absorb_of_lt_length hcut, drop_fill hle, ← hchain]
    exact (flush _).absorbBlocks (.inl rfl)
  · rw [if_neg hfill]
    apply h.absorbBlocks
    by_cases hnil : front = []
    · exact .inl hnil
    · have hpos := List.length_pos_iff.2 hnil
      exact .inr (by omega)

end State.Buffers

@[simp] theorem State.outputBits_write (s : State) (data : Bytes) :
    (s.write data).outputBits = s.outputBits := by
  rw [State.write]

@[simp] theorem State.outputBits_flush (s : State) : s.flush.outputBits = s.outputBits := rfl

@[simp] theorem State.outputBits_absorbBlocks (s : State) (data : Bytes) :
    (s.absorbBlocks data).outputBits = s.outputBits := rfl

@[simp] theorem State.outputBits_absorb (s : State) (data : Bytes) :
    (s.absorb data).outputBits = s.outputBits := by
  rw [State.absorb]
  split
  · simp
  · simp

theorem State.new_eq_ok_iff {outputBits : Nat} {s : State} :
    State.new outputBits = .ok s ↔
      (1 ≤ outputBits ∧ outputBits ≤ 256) ∧ s = .initial outputBits := by
  unfold State.new
  split_ifs with hbits
  · exact iff_of_false nofun (by omega)
  · rw [Except.ok.injEq, and_iff_right (by omega), eq_comm]

/-! ### What a state holds -/

/-- The chaining value after the whole blocks of `data`, and the bytes after them. -/
def absorbed (outputBits : Nat) (data : Bytes) : Words × Bytes :=
  Digest.absorb 127 compress (initialChain outputBits) data

theorem length_absorbed_le (outputBits : Nat) (data : Bytes) :
    (absorbed outputBits data).2.length ≤ 127 := length_absorb_le ..

theorem absorbed_append (outputBits : Nat) (data more : Bytes) :
    absorbed outputBits (data ++ more) =
      Digest.absorb 127 compress (absorbed outputBits data).1
        ((absorbed outputBits data).2 ++ more) := absorb_append ..

/-- The state has absorbed the whole bytes `data` and the bits `tail` after them. -/
structure State.Holds (outputBits : Nat) (data : Bytes) (tail : List Bool) (s : State) : Prop where
  length_tail : tail.length < 8
  outputBits_eq : s.outputBits = outputBits
  chain_eq : s.chain = (absorbed outputBits data).1
  bitOffset_eq : s.bitOffset = 8 * (absorbed outputBits data).2.length + tail.length
  isPrefix : (absorbed outputBits data).2 ++ ofBits tail <+: s.buffer.toList

namespace State

variable {outputBits : Nat} {data : Bytes} {tail : List Bool} {s : State}

theorem holds_nil_iff : s.Holds outputBits data [] ↔
    s.outputBits = outputBits ∧ s.chain = (absorbed outputBits data).1 ∧
      s.Buffers (absorbed outputBits data).2 := by
  constructor
  · intro h
    have hinit := h.isPrefix
    rw [ofBits, List.append_nil] at hinit
    exact ⟨h.outputBits_eq, h.chain_eq, h.bitOffset_eq, hinit⟩
  · rintro ⟨hbits, hchain, hbuffers⟩
    refine ⟨by decide, hbits, hchain, hbuffers.bitOffset_eq, ?_⟩
    rw [ofBits, List.append_nil]
    exact hbuffers.isPrefix

theorem holds_initial (outputBits : Nat) : (initial outputBits).Holds outputBits [] [] := by
  have hnil : absorbed outputBits [] = (initialChain outputBits, []) :=
    absorb_of_length_le (Nat.zero_le _)
  rw [holds_nil_iff, hnil]
  exact ⟨rfl, rfl, rfl, List.nil_prefix⟩

theorem Holds.absorb (h : s.Holds outputBits data []) (more : Bytes) :
    (s.absorb more).Holds outputBits (data ++ more) [] := by
  obtain ⟨hbits, hchain, hbuffers⟩ := holds_nil_iff.1 h
  have habsorb := hbuffers.absorb (length_absorbed_le outputBits data) more
  rw [hchain, ← absorbed_append] at habsorb
  rw [holds_nil_iff, outputBits_absorb]
  exact ⟨hbits, habsorb⟩

theorem Holds.bitOffset_mod (h : s.Holds outputBits data tail) : s.bitOffset % 8 = tail.length := by
  have hoffset := h.bitOffset_eq
  have hlt := h.length_tail
  omega

theorem Holds.bitOffset_div (h : s.Holds outputBits data tail) :
    s.bitOffset / 8 = (absorbed outputBits data).2.length := by
  have hoffset := h.bitOffset_eq
  have hlt := h.length_tail
  omega

theorem Holds.append_tail (h : s.Holds outputBits data []) {tail : List Bool} (hne : tail ≠ [])
    (hlt : tail.length < 8) :
    State.Holds outputBits data tail
      { s with
        buffer := overwrite s.buffer (s.bitOffset / 8) [octetOfBits tail]
        bitOffset := s.bitOffset + tail.length } := by
  obtain ⟨hbits, hchain, hbuffers⟩ := holds_nil_iff.1 h
  have hle := length_absorbed_le outputBits data
  refine ⟨hlt, hbits, hchain, ?_, ?_⟩
  · rw [hbuffers.bitOffset_eq]
  · rw [ofBits_of_length_le hne hlt.le, hbuffers.bitOffset_div]
    exact append_prefix_overwrite hbuffers.isPrefix (by rw [List.length_singleton]; omega)

/-! ### The last block -/

theorem Holds.lastByte (h : s.Holds outputBits data tail) :
    s.lastByte = octetOfBits (tail ++ [true]) := by
  rw [State.lastByte, h.bitOffset_mod, h.bitOffset_div]
  by_cases hnil : tail = []
  · have hbyte : (0x80 : UInt8) = octetOfBits [true] := by decide
    rw [hnil, if_neg (by decide), List.nil_append, hbyte]
  · have hinit := h.isPrefix
    rw [ofBits_of_length_le hnil h.length_tail.le, List.prefix_iff_getElem] at hinit
    obtain ⟨hle, hbytes⟩ := hinit
    rw [List.length_append, List.length_singleton, Vector.length_toList] at hle
    have hbyte := hbytes (absorbed outputBits data).2.length
      (by rw [List.length_append, List.length_singleton]; omega)
    rw [List.getElem_concat_length rfl, Vector.getElem_toList] at hbyte
    rw [if_pos (List.length_pos_iff.2 hnil), Array.getD, dif_pos (by simpa using hle),
      ← octetOfBits_or h.length_tail, hbyte]
    rfl

theorem Holds.lastBlock (h : s.Holds outputBits data tail) :
    s.lastBlock.toList = (absorbed outputBits data).2 ++ octetOfBits (tail ++ [true]) ::
      List.replicate (127 - (absorbed outputBits data).2.length) 0 := by
  have hle := length_absorbed_le outputBits data
  have hfull : (absorbed outputBits data).2.length + (octetOfBits (tail ++ [true]) ::
      List.replicate (127 - (absorbed outputBits data).2.length) 0).length = 128 := by
    rw [List.length_cons, List.length_replicate]
    omega
  have hinit := append_prefix_overwrite ((List.prefix_append _ _).trans h.isPrefix) hfull.le
  rw [State.lastBlock, h.lastByte, h.bitOffset_div]
  refine (hinit.eq_of_length ?_).symm
  rw [List.length_append, hfull, Vector.length_toList]

end State

end SigScript.Lsh
