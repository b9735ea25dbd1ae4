import Mathlib
import SigScript.Digest.Algorithm
import SigScript.Proofs.Digest.LshStream

/-!
# Digests of pieces

A hash function that is fed in pieces gives the digest of the pieces put together
(`HashAlgorithm.digestAll_eq`).  Two of the hash functions keep what does not fill a block and end in
the same state.  The buffer of the third still shows how its input was cut, and only the digests agree.
-/

namespace SigScript

theorem foldl_absorb {σ : Type} {absorb : σ → Bytes → σ}
    (happend : ∀ s front back, absorb (absorb s front) back = absorb s (front ++ back)) (s : σ)
    (front : Bytes) (pieces : List Bytes) :
    pieces.foldl absorb (absorb s front) = absorb s (front ++ pieces.flatten) := by
  induction pieces generalizing front with
  | nil => rw [List.foldl_nil, List.flatten_nil, List.append_nil]
  | cons piece pieces ih => rw [List.foldl_cons, happend, ih, List.flatten_cons, List.append_assoc]

theorem Sha256.State.absorb_absorb (s : State) (front back : Bytes) :
    (s.absorb front).absorb back = s.absorb (front ++ back) := by
  have h := Digest.absorb_append 63 compress s.chain (s.pending ++ front) back
  rw [List.append_assoc] at h
  simp only [State.absorb, h, List.length_append, Nat.add_assoc]

theorem Sha3.State.absorb_absorb (s : State) (front back : Bytes) :
    (s.absorb front).absorb back = s.absorb (front ++ back) := by
  have h := Digest.absorb_append 135 compress s.lanes (s.pending ++ front) back
  rw [List.append_assoc] at h
  simp only [State.absorb, h]

/-- Before any input no bytes are waiting, so absorbing none changes nothing. -/
theorem Sha256.State.initial_absorb_nil : State.initial.absorb [] = State.initial := by
  have h : Digest.absorb 63 compress State.initial.chain [] = (State.initial.chain, []) :=
    Digest.absorb_of_length_le (Nat.zero_le _)
  exact congrArg (fun r : Registers × Bytes => State.mk r.1 r.2 0) h

theorem Sha3.State.initial_absorb_nil : State.initial.absorb [] = State.initial := by
  have h : Digest.absorb 135 compress State.initial.lanes [] = (State.initial.lanes, []) :=
    Digest.absorb_of_length_le (Nat.zero_le _)
  exact congrArg (fun r : Lanes × Bytes => State.mk r.1 r.2) h

/-! ### Hashers -/

theorem Hasher.absorbAll_lsh256 (s : Lsh.State) (pieces : List Bytes) :
    absorbAll (.lsh256 s) pieces = .lsh256 (pieces.foldl Lsh.State.absorb s) :=
  List.foldl_hom Hasher.lsh256 fun _ _ => rfl

theorem Hasher.absorbAll_sha256 (s : Sha256.State) (pieces : List Bytes) :
    absorbAll (.sha256 s) pieces = .sha256 (pieces.foldl Sha256.State.absorb s) :=
  List.foldl_hom Hasher.sha256 fun _ _ => rfl

theorem Hasher.absorbAll_sha3 (s : Sha3.State) (pieces : List Bytes) :
    absorbAll (.sha3 s) pieces = .sha3 (pieces.foldl Sha3.State.absorb s) :=
  List.foldl_hom Hasher.sha3 fun _ _ => rfl

theorem HashAlgorithm.digestAll_eq (hash : HashAlgorithm) (pieces : List Bytes) :
    hash.digestAll pieces = hash.digest pieces.flatten := by
  cases hash with
  | lsh256 outputBits =>
    by_cases hbits : outputBits = 0 ∨ 256 < outputBits
    · simp only [digestAll, digest, hasher, Lsh.State.new, if_pos hbits]
      rfl
    · have hle : outputBits ≤ 256 := by omega
      have hjoined := Lsh.finish_foldl_absorb hle [pieces.flatten]
      rw [List.flatten_singleton, ← Lsh.finish_foldl_absorb hle pieces] at hjoined
      simp only [digestAll, digest, hasher, Lsh.State.new, if_neg hbits, map_ok,
        Hasher.absorbAll_lsh256]
      exact congrArg Except.ok hjoined.symm
  | sha256 =>
    have h := foldl_absorb Sha256.State.absorb_absorb .initial [] pieces
    rw [Sha256.State.initial_absorb_nil, List.nil_append] at h
    simp only [digestAll, digest, hasher, map_ok, Hasher.absorbAll_sha256, h, Hasher.absorb]
  | sha3 =>
    have h := foldl_absorb Sha3.State.absorb_absorb .initial [] pieces
    rw [Sha3.State.initial_absorb_nil, List.nil_append] at h
    simp only [digestAll, digest, hasher, map_ok, Hasher.absorbAll_sha3, h, Hasher.absorb]

end SigScript
