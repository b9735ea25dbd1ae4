import Mathlib
import SigScript.Proofs.Digest.Pieces

/-!
# Bounds of the buffer of LSH-256

The buffer has room for 1024 bits, and after every call fewer are filled: absorbing adds the new bits
modulo 1024 (`State.bitOffset_absorb`, `State.bitOffset_of_updateBits`).  A state that takes nothing
but whole bytes keeps ending with a whole byte (`State.WholeBytes.foldl_absorb`).

Here the computation is written a second time, with accesses that stop it (`none`) when a position is
not there, two lengths differ, or whole bytes are absorbed behind a part of a byte.  On a state within
its bounds it is never stopped and agrees with the other one (`Guarded.run_eq`, `Guarded.finish_eq`);
beyond them it is (`Guarded.absorb_eq_none_iff`, `Guarded.finish_eq_none_iff`).
-/

namespace SigScript

namespace Lsh

open Digest

/-! ### The number of filled bits -/

namespace State

variable {s : State} {data : Bytes} {n : Nat}

@[simp] theorem bitOffset_write (s : State) (data : Bytes) :
    (s.write data).bitOffset = s.bitOffset + 8 * data.length := rfl

@[simp] theorem bitOffset_flush (s : State) : s.flush.bitOffset = 0 := rfl

theorem bitOffset_absorbBlocks (s : State) (data : Bytes) :
    (s.absorbBlocks data).bitOffset = s.bitOffset + 8 * (data.length % 128) := by
  rw [absorbBlocks, bitOffset_write, length_absorb_snd]

/-- The bits of a block that becomes full are no longer counted. -/
theorem bitOffset_absorb (haligned : s.bitOffset % 8 = 0) (hle : s.bitOffset ≤ 1024)
    (data : Bytes) : (s.absorb data).bitOffset = (s.bitOffset + 8 * data.length) % 1024 := by
  rw [State.absorb]
  by_cases hfill : 0 < s.bitOffset / 8 ∧ 128 - s.bitOffset / 8 ≤ data.length
  · rw [if_pos hfill, bitOffset_absorbBlocks, bitOffset_flush, List.length_drop]
    omega
  · rw [if_neg hfill, bitOffset_absorbBlocks]
    omega

/-- Bits that are accepted come behind whole bytes, and those that fill no byte are counted on top. -/
theorem cases_of_updateBits (h : (s.updateBits data n).1 = .ok ()) :
    n = 0 ∧ (s.updateBits data n).2 = s ∨
      (n ≤ 8 * data.length ∧ s.bitOffset % 8 = 0) ∧
        (s.updateBits data n).2.bitOffset = (s.absorb (data.take (n / 8))).bitOffset + n % 8 ∧
        (s.updateBits data n).2.outputBits = s.outputBits := by
  unfold State.updateBits at h ⊢
  split_ifs at h ⊢ with hover hzero haligned hwhole
  · exact .inl ⟨hzero, rfl⟩
  · refine .inr ⟨⟨by omega, not_not.1 haligned⟩, ?_, outputBits_absorb s _⟩
    rw [hwhole, Nat.add_zero]
  · refine .inr ⟨⟨by omega, not_not.1 haligned⟩, rfl, ?_⟩
    dsimp only
    rw [outputBits_absorb]

theorem bitOffset_of_updateBits (hlt : s.bitOffset < 1024)
    (h : (s.updateBits data n).1 = .ok ()) :
    (s.updateBits data n).2.bitOffset = (s.bitOffset + n) % 1024 := by
  obtain ⟨rfl, hs⟩ | ⟨⟨hn, haligned⟩, hoffset, -⟩ := cases_of_updateBits h
  · rw [hs, Nat.add_zero, Nat.mod_eq_of_lt hlt]
  · rw [hoffset, bitOffset_absorb haligned hlt.le, List.length_take]
    omega

theorem outputBits_of_updateBits (h : (s.updateBits data n).1 = .ok ()) :
    (s.updateBits data n).2.outputBits = s.outputBits := by
  obtain ⟨-, hs⟩ | ⟨-, -, hbits⟩ := cases_of_updateBits h
  · rw [hs]
  · exact hbits

/-! ### Bounds -/

/-- The bounds on a state: one more bit has room in the buffer, and the digest is no longer than the
folded chaining value. -/
structure Bounded (s : State) : Prop where
  bitOffset_lt : s.bitOffset < 1024
  outputBits_le : s.outputBits ≤ 256

/-- A state within its bounds that ends with a whole byte. -/
structure WholeBytes (s : State) : Prop extends s.Bounded where
  bitOffset_mod : s.bitOffset % 8 = 0

theorem wholeBytes_initial {outputBits : Nat} (h : outputBits ≤ 256) :
    (State.initial outputBits).WholeBytes :=
  ⟨⟨Nat.zero_lt_succ 1023, h⟩, Nat.zero_mod 8⟩

theorem WholeBytes.absorb (h : s.WholeBytes) (data : Bytes) : (s.absorb data).WholeBytes := by
  have haligned := h.bitOffset_mod
  have hoffset := bitOffset_absorb haligned h.bitOffset_lt.le data
  refine ⟨⟨by omega, ?_⟩, by omega⟩
  rw [outputBits_absorb]
  exact h.outputBits_le

theorem WholeBytes.foldl_absorb (h : s.WholeBytes) (pieces : List Bytes) :
    (pieces.foldl State.absorb s).WholeBytes := by
  induction pieces generalizing s with
  | nil => exact h
  | cons piece pieces ih => exact ih (h.absorb piece)

theorem Bounded.updateBits (h : s.Bounded) (data : Bytes) (n : Nat) :
    (s.updateBits data n).2.Bounded := by
  cases hanswer : (s.updateBits data n).1 with
  | error e =>
    rw [updateBits_of_error hanswer]
    exact h
  | ok =>
    refine ⟨?_, ?_⟩
    · rw [bitOffset_of_updateBits h.bitOffset_lt hanswer]
      exact Nat.mod_lt _ (by decide)
    · rw [outputBits_of_updateBits hanswer]
      exact h.outputBits_le

/-- A call keeps a state within its bounds, whether it fails or not. -/
theorem Bounded.after (h : s.Bounded) (call : Call) : (call.after s).Bounded := by
  cases call with
  | update data => exact h.updateBits data _
  | updateBits data n => exact h.updateBits data n
  | reset => exact (wholeBytes_initial h.outputBits_le).toBounded

theorem Bounded.run (h : s.Bounded) (calls : List Call) : (Call.run s calls).Bounded := by
  induction calls generalizing s with
  | nil => exact h
  | cons call calls ih => exact ih (h.after call)

end State

namespace Guarded

/-! ### Guarded accesses -/

/-- The difference of two numbers, which must not be negative. -/
def sub (a b : Nat) : Option Nat := if b ≤ a then some (a - b) else none

/-- The bytes from one position up to another. -/
def slice (bytes : Bytes) (start stop : Nat) : Option Bytes :=
  if start ≤ stop ∧ stop ≤ bytes.length then some ((bytes.take stop).drop start) else none

/-- Replaces the byte at a position of a block. -/
def put (block : Block) (i : Nat) (b : UInt8) : Option Block :=
  if h : i < 128 then some (block.set i b) else none

/-- Replaces the bytes of a block from one position up to another by as many bytes. -/
def copy (block : Block) (start stop : Nat) (bytes : Bytes) : Option Block :=
  if start ≤ stop ∧ stop ≤ 128 ∧ bytes.length = stop - start then some (overwrite block start bytes)
  else none

/-- Compresses a block, which must have its full length. -/
def compress (chain : Words) (block : Bytes) : Option Words :=
  if block.length = 128 then some (Lsh.compress chain block) else none

/-! ### Guarded calls -/

/-- Compresses the whole blocks at the front of `data` and copies the rest to the buffer. -/
def absorbBlocks (s : State) (data : Bytes) : Option State := do
  let chain ← (blocks 128 data).foldlM compress s.chain
  let rest := data.drop (128 * (data.length / 128))
  let whole := s.bitOffset / 8
  let buffer ← copy s.buffer whole (whole + rest.length) rest
  return { s with chain, buffer, bitOffset := s.bitOffset + 8 * rest.length }

/-- Absorbs whole bytes into a state, which must end with a whole byte. -/
def absorb (s : State) (data : Bytes) : Option State :=
  if s.bitOffset % 8 ≠ 0 then none
  else do
    let whole := s.bitOffset / 8
    let gap ← sub 128 whole
    if 0 < whole ∧ gap ≤ data.length then
      let buffer ← copy s.buffer whole 128 (← slice data 0 gap)
      let chain ← compress s.chain buffer.toList
      absorbBlocks { s with chain, buffer, bitOffset := 0 } (← slice data gap data.length)
    else absorbBlocks s data

/-- Absorbs the first `n` bits of `data`. -/
def updateBits (s : State) (data : Bytes) (n : Nat) :
    Option (Except CryptoError Unit × State) :=
  if 8 * data.length < n then some (.error (.bitLengthOverflow n data.length), s)
  else if n = 0 then some (.ok (), s)
  else if s.bitOffset % 8 ≠ 0 then some (.error .unalignedUpdate, s)
  else do
    let s ← absorb s (← slice data 0 (n / 8))
    if n % 8 = 0 then return (.ok (), s)
    else
      let last ← data[n / 8]?
      let buffer ← put s.buffer (s.bitOffset / 8) (last &&& firstBits (n % 8))
      return (.ok (), { s with buffer, bitOffset := s.bitOffset + n % 8 })

/-- The answer to a call, with the state that it passes on. -/
def answer (s : State) : Call → Option (Except CryptoError Unit × State)
  | .update data => updateBits s data (8 * data.length)
  | .updateBits data n => updateBits s data n
  | .reset => some (.ok (), s.reset)

/-- The state after a call, whether it fails or not. -/
def after (s : State) (call : Call) : Option State := (answer s call).map Prod.snd

/-- The state after calls. -/
def run (s : State) (calls : List Call) : Option State := calls.foldlM after s

/-! ### The guarded digest -/

/-- The buffer with a 1 bit behind the filled bits. -/
def mark (s : State) : Option Block := do
  let whole := s.bitOffset / 8
  let part := s.bitOffset % 8
  if 0 < part then put s.buffer whole ((← s.buffer[whole]?) ||| 0x80 >>> UInt8.ofNat part)
  else put s.buffer whole 0x80

/-- The last block: the filled bits, one 1 bit, and zeros. -/
def lastBlock (s : State) : Option Block := do
  let next := s.bitOffset / 8 + 1
  copy (← mark s) next 128 (List.replicate (128 - next) 0)

/-- The first `bits` bits of a byte string.  A byte that they do not fill is changed where it stands. -/
def truncate (bits : Nat) (bs : Bytes) : Option Bytes :=
  let size := (bits + 7) / 8
  let out := bs.take size
  if bits % 8 = 0 then some out
  else do
    let last ← sub size 1
    let b ← out[last]?
    return out.set last (b &&& 0xff <<< UInt8.ofNat (8 - bits % 8))

/-- The digest of all input. -/
def finish (s : State) : Option Bytes := do
  let chain ← compress s.chain (← lastBlock s).toList
  truncate s.outputBits (foldChain chain)

/-! ### Calls within the bounds -/

theorem slice_zero {bytes : Bytes} {stop : Nat} (h : stop ≤ bytes.length) :
    slice bytes 0 stop = some (bytes.take stop) :=
  if_pos ⟨Nat.zero_le _, h⟩

theorem slice_length {bytes : Bytes} {start : Nat} (h : start ≤ bytes.length) :
    slice bytes start bytes.length = some (bytes.drop start) := by
  rw [slice, if_pos ⟨h, le_rfl⟩, List.take_length]

theorem put_of_lt (block : Block) {i : Nat} (hi : i < 128) (b : UInt8) :
    put block i b = some (overwrite block i [b]) := by
  rw [put, dif_pos hi, overwrite_singleton block hi]

theorem compress_toList (chain : Words) (block : Block) :
    compress chain block.toList = some (Lsh.compress chain block.toList) :=
  if_pos Vector.length_toList

variable {s : State} {data : Bytes} {n : Nat}

theorem absorbBlocks_eq (hroom : s.bitOffset / 8 + data.length % 128 ≤ 128) :
    absorbBlocks s data = some (s.absorbBlocks data) := by
  have hchain : (blocks 128 data).foldlM compress s.chain =
      some (Digest.absorb 127 Lsh.compress s.chain data).1 := by
    rw [absorb_fst]
    exact foldlM_eq_some (I := fun _ => True)
      (fun _ _ _ hblock => if_pos (length_of_mem_blocks hblock)) (fun _ _ _ => trivial) trivial
  have hrest : data.drop (128 * (data.length / 128)) =
      (Digest.absorb 127 Lsh.compress s.chain data).2 := (absorb_snd ..).symm
  have hlen : (Digest.absorb 127 Lsh.compress s.chain data).2.length = data.length % 128 :=
    length_absorb_snd ..
  simp only [absorbBlocks, hchain, hrest, Option.bind_eq_bind, Option.bind_some]
  rw [copy, if_pos (by omega)]
  rfl

/-- The buffer filled up and flushed, field by field. -/
theorem flush_write (s : State) (data : Bytes) :
    (s.write data).flush =
      { s with
        chain := Lsh.compress s.chain (s.write data).buffer.toList
        buffer := (s.write data).buffer
        bitOffset := 0 } := by
  rw [State.flush, State.write]

theorem absorb_eq (haligned : s.bitOffset % 8 = 0) (hle : s.bitOffset ≤ 1024) (data : Bytes) :
    absorb s data = some (s.absorb data) := by
  have hgap : sub 128 (s.bitOffset / 8) = some (128 - s.bitOffset / 8) := if_pos (by omega)
  rw [absorb, if_neg (not_not.2 haligned), State.absorb]
  simp only [hgap, Option.bind_eq_bind, Option.bind_some]
  by_cases hfill : 0 < s.bitOffset / 8 ∧ 128 - s.bitOffset / 8 ≤ data.length
  · have hcopy : copy s.buffer (s.bitOffset / 8) 128 (data.take (128 - s.bitOffset / 8)) =
        some (s.write (data.take (128 - s.bitOffset / 8))).buffer :=
      if_pos ⟨by omega, le_rfl, List.length_take_of_le hfill.2⟩
    rw [if_pos hfill, if_pos hfill, flush_write]
    simp only [slice_zero hfill.2, hcopy, compress_toList, slice_length hfill.2, Option.bind_some]
    exact absorbBlocks_eq (by dsimp only; omega)
  · rw [if_neg hfill, if_neg hfill]
    exact absorbBlocks_eq (by omega)

theorem updateBits_eq (hlt : s.bitOffset < 1024) (data : Bytes) (n : Nat) :
    updateBits s data n = some (s.updateBits data n) := by
  unfold updateBits State.updateBits
  split_ifs with hover hzero haligned hwhole
  · rfl
  · rfl
  · rfl
  · simp only [slice_zero (show n / 8 ≤ data.length by omega), Option.bind_eq_bind, Option.bind_some,
      absorb_eq (not_not.1 haligned) hlt.le]
    rfl
  · -- The bits that are left over are fewer than eight, and the buffer is not full.
    have hoffset := State.bitOffset_absorb (not_not.1 haligned) hlt.le (data.take (n / 8))
    have hbyte : data[n / 8]? = some (data.getD (n / 8) 0) := by
      rw [List.getElem?_eq_getElem (by omega), List.getD_eq_getElem _ _ (by omega)]
    have hput := put_of_lt (s.absorb (data.take (n / 8))).buffer
      (show (s.absorb (data.take (n / 8))).bitOffset / 8 < 128 by omega)
    simp only [slice_zero (show n / 8 ≤ data.length by omega), Option.bind_eq_bind, Option.bind_some,
      absorb_eq (not_not.1 haligned) hlt.le, hbyte, hput]
    rfl

theorem answer_eq (hlt : s.bitOffset < 1024) (call : Call) :
    answer s call = some (call.answer s) := by
  cases call with
  | update data => exact updateBits_eq hlt _ _
  | updateBits data n => exact updateBits_eq hlt _ _
  | reset => rfl

theorem after_eq (hlt : s.bitOffset < 1024) (call : Call) : after s call = some (call.after s) := by
  rw [after, answer_eq hlt, Option.map_some, Call.after]

theorem run_eq (h : s.Bounded) (calls : List Call) : run s calls = some (Call.run s calls) :=
  foldlM_eq_some (I := State.Bounded) (fun _ hs call _ => after_eq hs.bitOffset_lt call)
    (fun _ call hs => hs.after call) h

theorem foldlM_absorb_eq (h : s.WholeBytes) (pieces : List Bytes) :
    pieces.foldlM absorb s = some (pieces.foldl State.absorb s) :=
  foldlM_eq_some (I := State.WholeBytes)
    (fun _ hs piece _ => absorb_eq hs.bitOffset_mod hs.bitOffset_lt.le piece)
    (fun _ piece hs => hs.absorb piece) h

/-! ### Digests within the bounds -/

theorem mark_eq (hlt : s.bitOffset < 1024) :
    mark s = some (overwrite s.buffer (s.bitOffset / 8) [s.lastByte]) := by
  have hwhole : s.bitOffset / 8 < 128 := by omega
  rw [mark, State.lastByte]
  by_cases hpart : 0 < s.bitOffset % 8
  · have hbyte : s.buffer[s.bitOffset / 8]? = some (s.buffer.toArray.getD (s.bitOffset / 8) 0) := by
      rw [Vector.getElem?_eq_getElem hwhole, Array.getD, dif_pos (by simpa using hwhole)]
      rfl
    rw [if_pos hpart, if_pos hpart, hbyte, Option.bind_eq_bind, Option.bind_some, put_of_lt _ hwhole]
  · rw [if_neg hpart, if_neg hpart, put_of_lt _ hwhole]

theorem lastBlock_eq (hlt : s.bitOffset < 1024) : lastBlock s = some s.lastBlock := by
  have hzeros : 128 - (s.bitOffset / 8 + 1) = 127 - s.bitOffset / 8 := by omega
  rw [lastBlock, mark_eq hlt, Option.bind_eq_bind, Option.bind_some, copy,
    if_pos ⟨by omega, le_rfl, List.length_replicate⟩, overwrite_overwrite, hzeros]
  rfl

theorem truncate_eq_some {bits : Nat} {bs : Bytes} (h : bits ≤ 8 * bs.length) :
    truncate bits bs = some (Lsh.truncate bits bs) := by
  have hmask : ∀ n < 8, n ≠ 0 → (0xff : UInt8) <<< UInt8.ofNat (8 - n) = firstBits n := by decide
  rw [truncate, Lsh.truncate]
  by_cases hwhole : bits % 8 = 0
  · have hsize : (bits + 7) / 8 = bits / 8 := by omega
    rw [if_pos hwhole, if_pos hwhole, hsize, List.append_nil]
  · have hsize : (bits + 7) / 8 = bits / 8 + 1 := by omega
    have hlast : sub (bits / 8 + 1) 1 = some (bits / 8) := if_pos (by omega)
    have hout : bs.take (bits / 8 + 1) = bs.take (bits / 8) ++ [bs.getD (bits / 8) 0] := by
      rw [List.take_succ_eq_append_getElem (by omega), List.getD_eq_getElem _ _ (by omega)]
    have hlen : (bs.take (bits / 8)).length = bits / 8 := List.length_take_of_le (by omega)
    have hbyte : (bs.take (bits / 8) ++ [bs.getD (bits / 8) 0])[bits / 8]? =
        some (bs.getD (bits / 8) 0) := by
      rw [List.getElem?_append_right hlen.le, hlen, Nat.sub_self]
      rfl
    rw [if_neg hwhole, if_neg hwhole]
    simp only [hsize, hlast, hout, hbyte, Option.bind_eq_bind, Option.bind_some]
    rw [hmask _ (Nat.mod_lt _ (by decide)) hwhole, List.set_append_right _ _ hlen.le, hlen,
      Nat.sub_self]
    rfl

theorem finish_eq (h : s.Bounded) : finish s = some s.finish := by
  have hfit : s.outputBits ≤ 8 * (foldChain (Lsh.compress s.chain s.lastBlock.toList)).length := by
    rw [length_foldChain]
    exact h.outputBits_le
  simp only [finish, lastBlock_eq h.bitOffset_lt, compress_toList, Option.bind_eq_bind,
    Option.bind_some]
  rw [truncate_eq_some hfit, State.finish]

/-! ### Beyond the bounds -/

/-- A full buffer could still be flushed. -/
theorem absorb_eq_none_iff : absorb s data = none ↔ s.bitOffset % 8 ≠ 0 ∨ 1024 < s.bitOffset := by
  constructor
  · intro hnone
    by_contra hwithin
    rw [absorb_eq (by omega) (by omega)] at hnone
    cases hnone
  · intro hbeyond
    by_cases haligned : s.bitOffset % 8 = 0
    · have hgap : sub 128 (s.bitOffset / 8) = none := if_neg (by omega)
      rw [absorb, if_neg (not_not.2 haligned)]
      simp only [hgap, Option.bind_eq_bind, Option.bind_none]
    · exact if_pos haligned

/-- There must be room for the 1 bit of the padding. -/
theorem finish_eq_none_iff (hbits : s.outputBits ≤ 256) : finish s = none ↔ 1024 ≤ s.bitOffset := by
  constructor
  · intro hnone
    by_contra hlt
    rw [finish_eq ⟨by omega, hbits⟩] at hnone
    cases hnone
  · intro hbeyond
    have hput : ∀ b, put s.buffer (s.bitOffset / 8) b = none := fun b => dif_neg (by omega)
    have hmark : mark s = none := by
      rw [mark]
      split
      · cases s.buffer[s.bitOffset / 8]? with
        | none => rfl
        | some b => exact hput _
      · exact hput _
    rw [finish, lastBlock, hmark]
    rfl

end Guarded

end Lsh

/-- Whatever the calls are, and whether they fail or not, fewer than 1024 bits of the buffer are filled
after them, and no access is out of range in them or in the digest.  A state that is only given whole
bytes, as a hasher does, ends with a whole byte whenever more are absorbed. -/
theorem lsh_accesses_stay_in_range {outputBits : Nat} {s : Lsh.State}
    (hs : Lsh.State.new outputBits = .ok s) :
    (∀ calls, (Lsh.Call.run s calls).bitOffset < 1024 ∧
      Lsh.Guarded.run s calls = some (Lsh.Call.run s calls) ∧
      Lsh.Guarded.finish (Lsh.Call.run s calls) = some (Lsh.Call.run s calls).finish) ∧
    (∀ pieces : List Bytes, (pieces.foldl Lsh.State.absorb s).bitOffset < 1024 ∧
      (pieces.foldl Lsh.State.absorb s).bitOffset % 8 = 0 ∧
      pieces.foldlM Lsh.Guarded.absorb s = some (pieces.foldl Lsh.State.absorb s) ∧
      Lsh.Guarded.finish (pieces.foldl Lsh.State.absorb s) =
        some (pieces.foldl Lsh.State.absorb s).finish) ∧
    (HashAlgorithm.lsh256 outputBits).hasher = .ok (.lsh256 s) ∧
    ∀ pieces, Hasher.absorbAll (.lsh256 s) pieces = .lsh256 (pieces.foldl Lsh.State.absorb s) := by
  obtain ⟨⟨-, hle⟩, rfl⟩ := Lsh.State.new_eq_ok_iff.1 hs
  have hinitial := Lsh.State.wholeBytes_initial hle
  refine ⟨fun calls => ?_, fun pieces => ?_, ?_, Hasher.absorbAll_lsh256 _⟩
  · have hrun := hinitial.toBounded.run calls
    exact ⟨hrun.bitOffset_lt, Lsh.Guarded.run_eq hinitial.toBounded calls,
      Lsh.Guarded.finish_eq hrun⟩
  · have hpieces := hinitial.foldl_absorb pieces
    exact ⟨hpieces.bitOffset_lt, hpieces.bitOffset_mod,
      Lsh.Guarded.foldlM_absorb_eq hinitial pieces, Lsh.Guarded.finish_eq hpieces.toBounded⟩
  · rw [HashAlgorithm.hasher, hs, map_ok]

/-- Behind a whole block all bits of the buffer but one are filled; a call is refused there, and the
computation starts again. -/
theorem lsh_accesses_stay_in_range_twelve :
    Lsh.State.new 12 = .ok (.initial 12) ∧
    (Lsh.Call.run (.initial 12)
      [.update (List.replicate 255 0), .updateBits [0xff] 7, .update [1]]).bitOffset < 1024 ∧
    Lsh.Guarded.run (.initial 12)
        [.update (List.replicate 255 0), .updateBits [0xff] 7, .update [1], .reset, .update [1]] =
      some (Lsh.Call.run (.initial 12)
        [.update (List.replicate 255 0), .updateBits [0xff] 7, .update [1], .reset, .update [1]]) ∧
    ([List.replicate 127 0, [1, 2, 3]].foldl Lsh.State.absorb (.initial 12)).bitOffset % 8 = 0 := by
  have hnew : Lsh.State.new 12 = .ok (.initial 12) := rfl
  obtain ⟨hcalls, hpieces, -⟩ := lsh_accesses_stay_in_range hnew
  exact ⟨hnew, (hcalls _).1, (hcalls _).2.1, (hpieces _).2.1⟩

end SigScript
