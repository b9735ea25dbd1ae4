import Mathlib
import SigScript.Proofs.Curve.Domain
import SigScript.Proofs.Script.Opcodes

/-!
# Paying to the hash of a public key

A lock of five tokens asks for a public key with a given digest and a signature that the key verifies.
No other unlocking script passes it, whatever it pushes or computes: a halted run ends with `false`,
and every other way to the end leads through the check of the signature
(`payToPublicKeyHash_eq_ok_iff`).
-/

namespace SigScript.Machine

variable {machine : Machine} {stack : Stack} {s : State} {literal : String} {digest : Bytes}

/-- The lock with a literal for the digest of the public key. -/
def payToPublicKeyHash (literal : String) : List String :=
  ["OP_DUP", "OP_HASH", literal, "OP_EqualVerify", "OP_CheckSig"]

/-- The public key has the digest and belongs to a registered curve, its octets decode to a point, and
the signature of the message is valid for that point. -/
def Authorizes (machine : Machine) (digest message : Bytes) (sig : Signature)
    (key : PublicKeyInfo) : Prop :=
  machine.hash.digest (PublicKeyInfo.codec.encode key) = .ok digest ∧ key.IsEc ∧
    ∃ domain point, machine.registry.get? key.curve = some domain ∧
      CurvePoint.ofOctets domain key.point = .ok point ∧
      Ecdsa.verify ⟨domain, machine.hash⟩ point message sig = .ok true

/-- Another digest than that of the lock halts the run; the right one leaves the stack as it was to the
check of the signature. -/
theorem runFrom_payToPublicKeyHash (h : Token.literal? literal = some (.bytes digest)) :
    machine.runFrom (.running stack) (payToPublicKeyHash literal) = .ok s ↔
      ∃ below a octets, stack = below ++ [a] ∧ machine.hash.digest a.octets = .ok octets ∧
        (octets = digest ∧ machine.step (.running stack) Opcode.checkSig.mnemonic = .ok s ∨
          octets ≠ digest ∧ s = .halted) := by
  have hcompare : ∀ octets, machine.step (.running (stack ++ [.bytes octets] ++ [.bytes digest]))
      Opcode.equalVerify.mnemonic = .ok (if octets = digest then .running stack else .halted) := by
    intro octets
    rw [List.append_assoc, List.singleton_append, step_equalVerify]
    simp only [Value.agrees_bytes_iff]
  have hlast : ∀ octets, machine.runFrom (if octets = digest then .running stack else .halted)
      [Opcode.checkSig.mnemonic] = .ok s ↔
        octets = digest ∧ machine.step (.running stack) Opcode.checkSig.mnemonic = .ok s ∨
          octets ≠ digest ∧ s = .halted := by
    intro octets
    by_cases heq : octets = digest
    · simp [heq, runFrom_cons_eq_ok_iff]
    · simp [heq, runFrom_halted, eq_comm]
  constructor
  · intro hrun
    obtain ⟨s₁, hdup, hrun⟩ := runFrom_cons_eq_ok_iff.1 hrun
    obtain ⟨below, a, hstack, rfl⟩ := step_dup_eq_ok_iff.1 hdup
    obtain ⟨s₂, hhash, hrun⟩ := runFrom_cons_eq_ok_iff.1 hrun
    obtain ⟨octets, hoctets, rfl⟩ := step_hash_eq_ok_iff.1 hhash
    obtain ⟨s₃, hpush, hrun⟩ := runFrom_cons_eq_ok_iff.1 hrun
    rw [step_literal h] at hpush
    cases hpush
    obtain ⟨s₄, hequal, hrun⟩ := runFrom_cons_eq_ok_iff.1 hrun
    cases (hcompare octets).symm.trans hequal
    exact ⟨below, a, octets, hstack, hoctets, (hlast octets).1 hrun⟩
  · rintro ⟨below, a, octets, hstack, hoctets, hs⟩
    refine runFrom_cons_eq_ok_iff.2 ⟨_, step_dup_eq_ok_iff.2 ⟨below, a, hstack, rfl⟩, ?_⟩
    refine runFrom_cons_eq_ok_iff.2 ⟨_, step_hash_eq_ok_iff.2 ⟨octets, hoctets, rfl⟩, ?_⟩
    refine runFrom_cons_eq_ok_iff.2 ⟨_, step_literal h, ?_⟩
    exact runFrom_cons_eq_ok_iff.2 ⟨_, hcompare octets, (hlast octets).2 hs⟩

theorem step_checkSig_true_iff :
    machine.step (.running stack) Opcode.checkSig.mnemonic = .ok s ∧
        s.result.getLast? = some (.bool true) ↔
      ∃ below message sig key, stack = below ++ [message, .signature sig, .publicKey key] ∧
        machine.checkSignature message.octets sig key = .ok true ∧
        s = .running (below ++ [.bool true]) := by
  rw [step_checkSig_eq_ok_iff]
  constructor
  · rintro ⟨⟨below, message, sig, key, valid, hstack, hvalid, rfl⟩, hlast⟩
    rw [State.result, List.getLast?_concat, Option.some.injEq, Value.bool.injEq] at hlast
    rw [hlast] at hvalid ⊢
    exact ⟨below, message, sig, key, hstack, hvalid, rfl⟩
  · rintro ⟨below, message, sig, key, hstack, hvalid, rfl⟩
    refine ⟨⟨below, message, sig, key, true, hstack, hvalid, rfl⟩, ?_⟩
    rw [State.result, List.getLast?_concat]

end SigScript.Machine

namespace SigScript

/-- A run of an unlocking script and the lock ends with `true` on top exactly when the unlocking script
runs to its end without a halt and leaves a message, a signature and a public key that authorizes the
signature.  What is below them stays. -/
theorem payToPublicKeyHash_eq_ok_iff {machine : Machine} {unlock : List String} {literal : String}
    {digest : Bytes} (h : Token.literal? literal = some (.bytes digest)) (stack : Stack) :
    machine.run (unlock ++ Machine.payToPublicKeyHash literal) = .ok stack ∧
        stack.getLast? = some (.bool true) ↔
      ∃ below message sig key,
        machine.runFrom (.running []) unlock =
          .ok (.running (below ++ [message, .signature sig, .publicKey key])) ∧
        machine.Authorizes digest message.octets sig key ∧ stack = below ++ [.bool true] := by
  constructor
  · rintro ⟨hrun, hlast⟩
    obtain ⟨s, hfrom, rfl⟩ := Machine.run_eq_ok_iff.1 hrun
    obtain ⟨middle, hunlock, hlock⟩ := Machine.runFrom_append_eq_ok_iff.1 hfrom
    have hhalted : ¬State.halted.result.getLast? = some (.bool true) := by decide
    cases middle with
    | halted =>
      rw [Machine.runFrom_halted] at hlock
      cases hlock
      exact absurd hlast hhalted
    | running top =>
      obtain ⟨_, a, octets, htop, hoctets, ⟨rfl, hcheck⟩ | ⟨-, rfl⟩⟩ :=
        (Machine.runFrom_payToPublicKeyHash h).1 hlock
      · obtain ⟨below, message, sig, key, hstack, hvalid, rfl⟩ :=
          Machine.step_checkSig_true_iff.1 ⟨hcheck, hlast⟩
        -- The value that was hashed is the public key.
        have hkey : a = .publicKey key := by
          have hsame := congrArg List.getLast? (htop.symm.trans hstack)
          simpa using hsame
        rw [hkey, Value.octets_publicKey] at hoctets
        obtain ⟨hec, hpoint⟩ := Machine.checkSignature_eq_ok_iff.1 hvalid
        rw [hstack] at hunlock
        exact ⟨below, message, sig, key, hunlock, ⟨hoctets, hec, hpoint⟩, rfl⟩
      · exact absurd hlast hhalted
  · rintro ⟨below, message, sig, key, hunlock, ⟨hdigest, hec, hpoint⟩, rfl⟩
    have hvalid : machine.checkSignature message.octets sig key = .ok true :=
      Machine.checkSignature_eq_ok_iff.2 ⟨hec, hpoint⟩
    have hcheck := Machine.step_checkSig_true_iff.2 ⟨below, message, sig, key, rfl, hvalid, rfl⟩
    have hlock := (Machine.runFrom_payToPublicKeyHash h).2
      ⟨below ++ [message, .signature sig], .publicKey key, digest, by simp, hdigest,
        .inl ⟨rfl, hcheck.1⟩⟩
    refine ⟨Machine.run_eq_ok_iff.2 ⟨.running (below ++ [.bool true]), ?_, rfl⟩, hcheck.2⟩
    exact Machine.runFrom_append_eq_ok_iff.2 ⟨_, hunlock, hlock⟩

/-- A machine that knows one curve, with seven points. -/
def Machine.sevenPoints : Machine := ⟨⟨[(.secp256r1, .sevenPoints)]⟩, .sha256⟩

/-- A key on the curve with seven points unlocks the digest of its record. -/
theorem payToPublicKeyHash_eq_ok_iff_sevenPoints :
    Machine.sevenPoints.run
      (["bytes_utf8:", "sig:MAYCAQECAQU=", "pubkey:MBowEwYHKoZIzj0CAQYIKoZIzj0DAQcDAwACAg=="] ++
        Machine.payToPublicKeyHash "base64:JsGQ9SeTZW5LW56UtVMITbSEpJ2LnSm7T3yP8lV4R7w=") =
      .ok [.bool true] := by
  have hliteral : Token.literal? "base64:JsGQ9SeTZW5LW56UtVMITbSEpJ2LnSm7T3yP8lV4R7w=" =
      some (.bytes [0x26, 0xc1, 0x90, 0xf5, 0x27, 0x93, 0x65, 0x6e, 0x4b, 0x5b, 0x9e, 0x94, 0xb5,
        0x53, 0x08, 0x4d, 0xb4, 0x84, 0xa4, 0x9d, 0x8b, 0x9d, 0x29, 0xbb, 0x4f, 0x7c, 0x8f, 0xf2,
        0x55, 0x78, 0x47, 0xbc]) := by decide +kernel
  have hunlock : Machine.sevenPoints.runFrom (.running [])
      ["bytes_utf8:", "sig:MAYCAQECAQU=", "pubkey:MBowEwYHKoZIzj0CAQYIKoZIzj0DAQcDAwACAg=="] =
      .ok (.running [.bytes [], .signature ⟨1, 5⟩,
        .publicKey ⟨.ecPublicKey, .secp256r1, [0x02, 0x02]⟩]) := by decide +kernel
  have hpoint : CurvePoint.ofOctets .sevenPoints [0x02, 0x02] =
      .ok ⟨.sevenPoints, .affine 2 2⟩ := by decide +kernel
  have hverify : Ecdsa.verify ⟨.sevenPoints, .sha256⟩ ⟨.sevenPoints, .affine 2 2⟩ [] ⟨1, 5⟩ =
      .ok true := by decide +kernel
  exact ((payToPublicKeyHash_eq_ok_iff hliteral _).2 ⟨[], .bytes [], ⟨1, 5⟩, _, hunlock,
    ⟨by decide +kernel, rfl, _, _, rfl, hpoint, hverify⟩, rfl⟩).1

end SigScript
