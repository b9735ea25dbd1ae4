import Mathlib
import SigScript.Proofs.Curve.Encoding
import SigScript.Proofs.Script.PayToPublicKeyHash
import SigScript.Proofs.Script.Printed

/-!
# Checking a signature in a script

The script of a message, a signature and a public key checks what verification checks: the literals
stand for the values that were written, and a key record leads back to its point, whichever encoding
of the point it holds (`ofOctets_eq_ok`).
-/

namespace SigScript

theorem CurvePoint.ofOctets_eq_ok {d : Domain} {Q : CurvePoint} (hd : d.Accepted)
    (hprime : d.modulus.Prime) (hQ : Q.LiesOn d) :
    ∀ octets, octets = Q.toOctets ∨ octets = Q.toUncompressedOctets →
      ofOctets d octets = .ok Q := by
  obtain ⟨_, C⟩ := Q
  obtain ⟨rfl, hC⟩ := hQ
  have : Fact (Nat.Prime _) := ⟨hprime⟩
  rintro octets (rfl | rfl)
  · exact map_eq_ok_iff.2 ⟨C, Curve.decode_compressed hd.odd hC, rfl⟩
  · exact map_eq_ok_iff.2 ⟨C, Curve.decode_uncompressed hd.odd hC, rfl⟩

namespace Machine

variable {machine : Machine} {sig : Signature}

theorem checkSignature_ec {curve : ObjectIdentifier} {d : Domain} {octets message : Bytes}
    {Q : CurvePoint} (hcurve : machine.registry.get? curve = some d)
    (hpoint : CurvePoint.ofOctets d octets = .ok Q) :
    machine.checkSignature message sig (.ec curve octets) =
      (Ecdsa.verify ⟨d, machine.hash⟩ Q message sig).mapError .crypto := by
  have hec : (PublicKeyInfo.ec curve octets).IsEc := rfl
  rw [checkSignature, if_neg (not_not.2 hec)]
  simp only [PublicKeyInfo.ec, hcurve, hpoint]
  rfl

theorem run_checkSig {text : String} {message : Value} {key : PublicKeyInfo}
    (hmessage : Token.literal? text = some message) (hsig : (Value.signature sig).Readable)
    (hkey : (Value.publicKey key).Readable) :
    machine.run [text, (Value.signature sig).text, (Value.publicKey key).text, "OP_CheckSig"] =
      (machine.checkSignature message.octets sig key).map fun valid => [.bool valid] := by
  have hvalues := @runFrom_texts machine [message] [.signature sig, .publicKey key]
    (by simp [hsig, hkey, Value.kind])
  have hoperands : machine.runFrom (.running [])
      [text, (Value.signature sig).text, (Value.publicKey key).text] =
      .ok (.running [message, .signature sig, .publicKey key]) :=
    runFrom_cons_eq_ok_iff.2 ⟨_, step_literal hmessage, hvalues⟩
  have hcheck : machine.step (.running [message, .signature sig, .publicKey key])
      Opcode.checkSig.mnemonic = _ := step_checkSig [] message sig key
  calc machine.run [text, (Value.signature sig).text, (Value.publicKey key).text, "OP_CheckSig"]
      = (machine.step (.running [message, .signature sig, .publicKey key])
          Opcode.checkSig.mnemonic).map State.result := by
        rw [← runFrom_singleton]
        exact run_append hoperands
    _ = (machine.checkSignature message.octets sig key).map fun valid => [.bool valid] := by
        rw [hcheck]
        cases machine.checkSignature message.octets sig key <;> rfl

end Machine

/-- A script of a message, a signature and a public key on a registered curve over a field answers what
verification answers, and fails where that fails.  The record of the key can hold either encoding of
the point, and the point can be infinity. -/
theorem run_checkSig_eq_verify {machine : Machine} {curve : ObjectIdentifier} {d : Domain}
    {Q : CurvePoint} {sig : Signature} {text : String} {message : Value}
    (hoid : curve.Constructible) (hcurve : machine.registry.get? curve = some d)
    (hd : d.Accepted) (hprime : d.modulus.Prime) (hQ : Q.LiesOn d)
    (hsig : Signature.codec.Fits sig) (hmessage : Token.literal? text = some message) :
    ∀ octets, octets = Q.toOctets ∨ octets = Q.toUncompressedOctets →
      PublicKeyInfo.codec.Fits (.ec curve octets) →
      machine.run [text, (Value.signature sig).text, (Value.publicKey (.ec curve octets)).text,
          "OP_CheckSig"] =
        ((Ecdsa.verify ⟨d, machine.hash⟩ Q message.octets sig).mapError .crypto).map
          fun valid => [.bool valid] := by
  intro octets hoctets hkey
  have hec : ObjectIdentifier.ecPublicKey.Constructible := by decide
  have hpoint := CurvePoint.ofOctets_eq_ok hd hprime hQ octets hoctets
  rw [Machine.run_checkSig hmessage hsig ⟨⟨hec, hoid⟩, hkey⟩,
    Machine.checkSignature_ec hcurve hpoint]

/-- A signature of the empty message is valid for both encodings of its key. -/
theorem run_checkSig_eq_verify_sevenPoints :
    Machine.sevenPoints.run ["bytes_utf8:", (Value.signature ⟨1, 5⟩).text,
        (Value.publicKey (.ec .secp256r1 [0x02, 0x02])).text, "OP_CheckSig"] = .ok [.bool true] ∧
    Machine.sevenPoints.run ["bytes_utf8:", (Value.signature ⟨1, 5⟩).text,
        (Value.publicKey (.ec .secp256r1 [0x04, 0x02, 0x02])).text, "OP_CheckSig"] =
      .ok [.bool true] := by
  have hverify : Ecdsa.verify ⟨.sevenPoints, .sha256⟩ ⟨.sevenPoints, .affine 2 2⟩
      (Value.bytes []).octets ⟨1, 5⟩ = .ok true := by decide +kernel
  have hrun := @run_checkSig_eq_verify Machine.sevenPoints .secp256r1 .sevenPoints
    ⟨.sevenPoints, .affine 2 2⟩ ⟨1, 5⟩ "bytes_utf8:" (.bytes []) (by decide) (by decide)
    (by decide) Nat.prime_three (by decide) (by decide) (by decide +kernel)
  have hhash : Machine.sevenPoints.hash = .sha256 := rfl
  rw [hhash, hverify] at hrun
  constructor
  · exact hrun [0x02, 0x02] (by decide) (by decide +kernel)
  · exact hrun [0x04, 0x02, 0x02] (by decide) (by decide +kernel)

end SigScript
