import Mathlib
import SigScript.Proofs.Der.Writer
import SigScript.Proofs.Ecdsa.Completeness
import SigScript.Proofs.Script.Opcodes

/-!
# Hashing values without a buffer

`OP_HASH` lets a value write its octets straight into a hasher, encoders with all their small pieces
included.  The digest is that of the octets in one piece (`digestOf_eq`), and the only failure is that
of starting a computation (`digest_eq_error_iff`).
-/

namespace SigScript

namespace HashAlgorithm

/-- The digest of what a writer feeds to a hasher. -/
def digestOf (hash : HashAlgorithm) (w : Der.Writer) : Except CryptoError Bytes :=
  hash.hasher.map fun h => (w Hasher Hasher.absorb h).finish

variable {hash : HashAlgorithm} {w : Der.Writer} {octets : Bytes}

theorem digestOf_eq (hash : HashAlgorithm) (h : w.Emits octets) :
    hash.digestOf w = hash.digest octets := by
  obtain ⟨ps, rfl, hw⟩ := h
  simp only [digestOf, hw]
  exact digestAll_eq hash ps

/-- A digest fails only when the hash function does not offer its length. -/
theorem digest_eq_error_iff {e : CryptoError} :
    hash.digest octets = .error e ↔
      ¬hash.Supported ∧ e = .invalidOutputLength hash.outputBits := by
  by_cases hhash : hash.Supported
  · obtain ⟨digest, hdigest⟩ := exists_digest hhash octets
    rw [hdigest]
    exact iff_of_false nofun fun h => h.1 hhash
  · cases hash with
    | lsh256 bits =>
      have hbits : bits = 0 ∨ 256 < bits := by
        by_contra hnot
        exact hhash ⟨show 1 ≤ bits by omega, show bits ≤ 256 by omega⟩
      have herror : digest (.lsh256 bits) octets = .error (.invalidOutputLength bits) := by
        rw [digest, hasher, Lsh.State.new, if_pos hbits]
        rfl
      rw [herror, Except.error.injEq]
      exact ⟨fun h => ⟨hhash, h.symm⟩, fun h => h.2.symm⟩
    | sha256 => exact absurd (by decide) hhash
    | sha3 => exact absurd (by decide) hhash

end HashAlgorithm

/-- Writes the octets of a value. -/
def Value.writer : Value → Der.Writer
  | int z => .pieces [Bytes.ofInt z]
  | bool b => .pieces [[if b then 1 else 0]]
  | bytes octets => .pieces [octets]
  | signature sig => .signature sig
  | publicKey key => .publicKey key

theorem Value.emits_writer (v : Value) : v.writer.Emits v.octets := by
  cases v with
  | int z => exact Der.Writer.emits_pieces _
  | bool b => exact Der.Writer.emits_pieces _
  | bytes octets => exact Der.Writer.emits_pieces _
  | signature sig => exact Der.Writer.emits_signature sig
  | publicKey key => exact Der.Writer.emits_publicKey key

/-- `OP_HASH` pushes what a hasher makes of a value that writes to it, and that is the digest of the
octets that the value writes to a buffer.  Both fail alike, for the digest lengths that do not
exist.  Signatures and public keys write their encoding. -/
theorem written_digest_is_digest (machine : Machine) (below : Stack) (v : Value) :
    machine.step (.running (below ++ [v])) Opcode.hash.mnemonic =
      ((machine.hash.digestOf v.writer).mapError .crypto).map
        (fun digest => .running (below ++ [.bytes digest])) ∧
    machine.hash.digestOf v.writer = machine.hash.digest v.writer.collect ∧
    (∀ e, machine.hash.digestOf v.writer = .error e ↔
      ¬machine.hash.Supported ∧ e = .invalidOutputLength machine.hash.outputBits) ∧
    v.writer.collect = v.octets ∧ v.writer.count = v.octets.length ∧
    (∀ sig, (Value.signature sig).writer.collect = Signature.codec.encode sig) ∧
    ∀ key, (Value.publicKey key).writer.collect = PublicKeyInfo.codec.encode key := by
  have hemits := v.emits_writer
  have hdigest := machine.hash.digestOf_eq hemits
  refine ⟨?_, ?_, ?_, hemits.collect_eq, hemits.count_eq, ?_, ?_⟩
  · rw [Machine.step_hash, hdigest]
  · rw [hdigest, hemits.collect_eq]
  · intro e
    rw [hdigest]
    exact HashAlgorithm.digest_eq_error_iff
  · intro sig
    exact (Value.signature sig).emits_writer.collect_eq
  · intro key
    exact (Value.publicKey key).emits_writer.collect_eq

end SigScript
