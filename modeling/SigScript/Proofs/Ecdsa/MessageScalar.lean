import Mathlib
import SigScript.Proofs.Bytes.Value
import SigScript.Proofs.Digest.LshStream
import SigScript.Proofs.Ecdsa.Completeness

/-!
# The leftmost bits of a digest

A digest has as many bits as its hash function offers, and zeros up to a whole byte
(`HashAlgorithm.exists_digest_bits`).  The message scalar is made of the leftmost bits of all bytes
(`Ecdsa.leftmostBits_eq_take`).  Where the order has more bits than the digest these include zeros of
the last byte, which are no bits of the digest (`Ecdsa.fillerBits`): the scalar is then the number of
the digest's bits, shifted to the left (`message_scalar_of_leftmost_bits`).
-/

namespace SigScript

open Bytes

/-! ### Digests -/

theorem Sha256.State.length_finish (s : State) : s.finish.length = 32 := by
  simp [State.finish, Digest.bytesBE32, Digest.bytesLE32]

theorem Sha3.State.length_finish (s : State) : s.finish.length = 32 := by
  have hword : ∀ w, (Digest.bytesLE64 w).length = 8 := fun _ => rfl
  simp [State.finish, List.length_flatMap, hword]

/-- A digest is as many bits as the hash function offers, filled up with zeros to a whole byte. -/
theorem HashAlgorithm.exists_digest_bits {hash : HashAlgorithm} (h : hash.Supported)
    (data : Bytes) : ∃ content : List Bool, content.length = hash.outputBits ∧
      hash.digest data = .ok (Bytes.ofBits content) := by
  cases hash with
  | lsh256 n =>
    have hpos : 1 ≤ n := h.1
    have hle : n ≤ 256 := h.2
    have hfinish := Lsh.finish_foldl_absorb hle [data]
    refine ⟨(bits (Lsh.foldChain (Lsh.finalChain n (bits [data].flatten)))).take n, ?_, ?_⟩
    · rw [List.length_take, length_bits, Lsh.length_foldChain]
      exact Nat.min_eq_left hle
    · rw [digest, hasher, Lsh.State.new, if_neg (by omega)]
      exact congrArg Except.ok hfinish
  | sha256 =>
    refine ⟨bits (Sha256.State.initial.absorb data).finish, ?_, ?_⟩
    · rw [length_bits, Sha256.State.length_finish]
      rfl
    · rw [ofBits_bits]
      rfl
  | sha3 =>
    refine ⟨bits (Sha3.State.initial.absorb data).finish, ?_, ?_⟩
    · rw [length_bits, Sha3.State.length_finish]
      rfl
    · rw [ofBits_bits]
      rfl

/-! ### Message scalars -/

namespace Ecdsa

/-- The leftmost bits of a digest are the first bits of its bytes. -/
theorem leftmostBits_eq_take (order : Nat) (digest : Bytes) :
    leftmostBits order digest =
      Binary.ofBits ((bits digest).take (Binary.bitLength order)) := by
  rw [leftmostBits, toNat_eq_ofBits, Binary.ofBits_take, length_bits]

/-- The zeros after a digest of `outputBits` bits that count as bits of the message scalar. -/
def fillerBits (order outputBits : Nat) : Nat :=
  min (Binary.bitLength order - outputBits) (8 * ((outputBits + 7) / 8) - outputBits)

theorem fillerBits_eq_zero_iff {order outputBits : Nat} :
    fillerBits order outputBits = 0 ↔
      outputBits % 8 = 0 ∨ Binary.bitLength order ≤ outputBits := by
  unfold fillerBits
  omega

theorem leftmostBits_ofBits (order : Nat) (content : List Bool) :
    leftmostBits order (Bytes.ofBits content) =
      Binary.ofBits (content.take (Binary.bitLength order)) *
        2 ^ fillerBits order content.length := by
  rw [leftmostBits_eq_take, bits_ofBits_eq, List.take_append, List.take_replicate,
    Binary.ofBits_append_list, Binary.ofBits_replicate_false, List.length_replicate, Nat.add_zero]
  rfl

end Ecdsa

/-- A message scalar is the number of the leftmost bits of the digest, as many as the order has or all
of them, followed by the zeros between the end of the digest and the end of its last byte that the
order has bits for.  So it is the number of the leftmost bits alone exactly if the digest ends with a
whole byte, is at least as long as the order, or has no 1 among these bits. -/
theorem message_scalar_of_leftmost_bits (scheme : Ecdsa) (h : scheme.hash.Supported)
    (message : Bytes) :
    ∃ (content : List Bool) (leftmost : Nat), content.length = scheme.hash.outputBits ∧
      scheme.hash.digest message = .ok (Bytes.ofBits content) ∧
      leftmost = Binary.ofBits (content.take
        (min (Binary.bitLength scheme.domain.order) scheme.hash.outputBits)) ∧
      leftmost < 2 ^ min (Binary.bitLength scheme.domain.order) scheme.hash.outputBits ∧
      scheme.messageScalar message = .ok (leftmost *
        2 ^ Ecdsa.fillerBits scheme.domain.order scheme.hash.outputBits) ∧
      (scheme.messageScalar message = .ok leftmost ↔
        scheme.hash.outputBits % 8 = 0 ∨
          Binary.bitLength scheme.domain.order ≤ scheme.hash.outputBits ∨ leftmost = 0) := by
  obtain ⟨content, hlength, hdigest⟩ := HashAlgorithm.exists_digest_bits h message
  have hlast : content.take (min (Binary.bitLength scheme.domain.order) scheme.hash.outputBits) =
      content.take (Binary.bitLength scheme.domain.order) := by
    rw [List.take_eq_take_iff, hlength, Nat.min_assoc, Nat.min_self]
  have hscalar := Ecdsa.leftmostBits_ofBits scheme.domain.order content
  rw [hlength, ← hlast] at hscalar
  have hmessage : scheme.messageScalar message = .ok (Ecdsa.leftmostBits scheme.domain.order
      (Bytes.ofBits content)) := by
    rw [Ecdsa.messageScalar, hdigest, map_ok]
  rw [hmessage, hscalar]
  refine ⟨content, _, hlength, hdigest, rfl, ?_, rfl, ?_⟩
  · have hlt := Binary.ofBits_lt (content.take
      (min (Binary.bitLength scheme.domain.order) scheme.hash.outputBits))
    rwa [List.length_take, hlength, Nat.min_assoc, Nat.min_self] at hlt
  · rw [Except.ok.injEq, mul_right_eq_self₀, Nat.pow_eq_one, Ecdsa.fillerBits_eq_zero_iff]
    tauto

theorem digest_twelve_bits :
    (HashAlgorithm.lsh256 12).digest [0x61, 0x62, 0x63] = .ok [0xb7, 0x10] := by decide +kernel

/-- The message scalar with a digest of twelve bits and an order of 256. -/
theorem messageScalar_twelve_bits :
    (⟨.secp256r1, .lsh256 12⟩ : Ecdsa).messageScalar [0x61, 0x62, 0x63] = .ok 0xb710 := by
  rw [Ecdsa.messageScalar, digest_twelve_bits, map_ok]
  decide +kernel

theorem message_scalar_of_leftmost_bits_secp256r1 : (HashAlgorithm.lsh256 12).Supported ∧
    ∃ leftmost < 2 ^ 12, (⟨.secp256r1, .lsh256 12⟩ : Ecdsa).messageScalar [0x61, 0x62, 0x63] =
      .ok (leftmost * 2 ^ 4) ∧ leftmost = 0xb71 := by
  have hsupported : (HashAlgorithm.lsh256 12).Supported := by decide
  have hwidth : min (Binary.bitLength Domain.secp256r1.order) 12 = 12 := by decide +kernel
  have hfill : Ecdsa.fillerBits Domain.secp256r1.order 12 = 4 := by decide +kernel
  obtain ⟨_, leftmost, -, -, -, hlt, hscalar, -⟩ :=
    message_scalar_of_leftmost_bits ⟨.secp256r1, .lsh256 12⟩ hsupported [0x61, 0x62, 0x63]
  have hscalar4 : (⟨.secp256r1, .lsh256 12⟩ : Ecdsa).messageScalar [0x61, 0x62, 0x63] =
      .ok (leftmost * 2 ^ 4) := hfill ▸ hscalar
  have hproduct : leftmost * 2 ^ 4 = 0xb710 :=
    Except.ok.inj (hscalar4.symm.trans messageScalar_twelve_bits)
  exact ⟨hsupported, leftmost, hwidth ▸ hlt, hscalar4, by omega⟩

/-- The twelve bits of a digest are not the message scalar, which counts the four zeros behind them
and is no number of twelve bits. -/
theorem messageScalar_counts_filler_bits :
    (⟨.secp256r1, .lsh256 12⟩ : Ecdsa).hash.digest [0x61, 0x62, 0x63] = .ok [0xb7, 0x10] ∧
      Binary.ofBits ((bits [0xb7, 0x10]).take
        (min (Binary.bitLength Domain.secp256r1.order) 12)) = 0xb71 ∧
      (⟨.secp256r1, .lsh256 12⟩ : Ecdsa).messageScalar [0x61, 0x62, 0x63] = .ok 0xb710 ∧
      ¬0xb710 < 2 ^ min (Binary.bitLength Domain.secp256r1.order) 12 :=
  ⟨digest_twelve_bits, by decide +kernel, messageScalar_twelve_bits, by decide +kernel⟩

end SigScript
