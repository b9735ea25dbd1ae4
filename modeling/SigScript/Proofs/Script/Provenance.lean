import Mathlib
import SigScript.Proofs.Script.Opcodes

/-!
# Where signatures and keys come from

No opcode makes a signature or a public key: what is on the stack after a token was there before, is
the value of the literal, or is plain (`mem_result_of_step`).  So what holds of plain values and of the
literals of a script holds of all values in its run (`forall_mem_of_runFrom`).  A machine looks up
nothing but the curves of the public keys that it finds on the stack; two machines that know the same
domains for the public keys in a script run it in the same way (`runFrom_congr`).
-/

namespace SigScript.Machine

variable {machine machine' : Machine} {op : Opcode} {operands : Operands op.handler.needed}
  {effect : Effect} {below : Stack} {s s' : State} {text : String} {tokens : List String} {v : Value}

/-! ### Values of a run -/

theorem mem_result_of_apply (h : op.handler.apply machine operands = .ok effect)
    (hv : v ∈ (effect.onto below).result) : v ∈ below ++ operands.1 ∨ v.IsPlain := by
  obtain ⟨-, w, hw, honto⟩ | ⟨-, a, hoperands, honto⟩ | ⟨-, honto | honto⟩ :=
    cases_of_apply h below
  · rw [honto, State.result, List.mem_append, List.mem_singleton] at hv
    obtain hv | rfl := hv
    · exact .inl (List.mem_append_left _ hv)
    · exact .inr hw
  · left
    simpa [honto, State.result, hoperands] using hv
  · rw [honto, State.result] at hv
    exact .inl (List.mem_append_left _ hv)
  · rw [honto, State.result, List.mem_singleton] at hv
    rw [hv]
    exact .inr trivial

/-- What is on the stack after a token was there before, is the value of the literal, or is plain. -/
theorem mem_result_of_step (h : machine.step s text = .ok s') (hv : v ∈ s'.result) :
    v ∈ s.result ∨ Token.literal? text = some v ∨ v.IsPlain := by
  cases s with
  | halted =>
    cases h
    exact .inl hv
  | running stack =>
    rcases Token.cases_text text with ⟨w, hw⟩ | ⟨op, rfl⟩ | hunknown
    · rw [step_literal hw] at h
      cases h
      obtain hv | hv := List.mem_append.1 hv
      · exact .inl hv
      · rw [List.mem_singleton.1 hv]
        exact .inr (.inl hw)
    · obtain ⟨below, operands, effect, rfl, heffect, rfl⟩ := step_op_eq_ok_iff.1 h
      exact (mem_result_of_apply heffect hv).imp_right .inr
    · rw [step_unknown hunknown] at h
      cases h

section Invariant

variable {V : Value → Prop} (hplain : ∀ v : Value, v.IsPlain → V v)

include hplain

theorem forall_mem_of_step (hliteral : ∀ v, Token.literal? text = some v → V v)
    (hs : ∀ v ∈ s.result, V v) (h : machine.step s text = .ok s') : ∀ v ∈ s'.result, V v := by
  intro v hv
  obtain hv | hv | hv := mem_result_of_step h hv
  · exact hs v hv
  · exact hliteral v hv
  · exact hplain v hv

/-- What holds of plain values and of literals holds of all values in a run. -/
theorem forall_mem_of_runFrom (hliteral : ∀ text ∈ tokens, ∀ v, Token.literal? text = some v → V v)
    (hs : ∀ v ∈ s.result, V v) (h : machine.runFrom s tokens = .ok s') :
    ∀ v ∈ s'.result, V v := by
  induction tokens generalizing s with
  | nil =>
    cases h
    exact hs
  | cons text tokens ih =>
    obtain ⟨hfirst, hmore⟩ := List.forall_mem_cons.1 hliteral
    obtain ⟨next, hstep, hrest⟩ := runFrom_cons_eq_ok_iff.1 h
    exact ih hmore (forall_mem_of_step hplain hfirst hs hstep) hrest

end Invariant

/-- A value in the run of a script is plain or the value of one of the literals. -/
theorem isPlain_or_exists_literal (h : machine.runFrom (.running []) tokens = .ok s) :
    ∀ v ∈ s.result, v.IsPlain ∨ ∃ text ∈ tokens, Token.literal? text = some v :=
  forall_mem_of_runFrom (fun _ hv => .inl hv) (fun text htext _ hv => .inr ⟨text, htext, hv⟩)
    (by simp [State.result]) h

/-! ### Domains that a run looks up -/

/-- If the value is a public key, both machines know the same domain for its curve. -/
def SameDomain (machine machine' : Machine) (v : Value) : Prop :=
  ∀ key, v = .publicKey key → machine.registry.get? key.curve = machine'.registry.get? key.curve

section SameHash

variable (hhash : machine.hash = machine'.hash)

include hhash

theorem checkSignature_congr {key : PublicKeyInfo}
    (hkey : machine.registry.get? key.curve = machine'.registry.get? key.curve) (message : Bytes)
    (sig : Signature) :
    machine.checkSignature message sig key = machine'.checkSignature message sig key := by
  rw [checkSignature, checkSignature, hkey, hhash]

theorem apply_congr (hoperands : ∀ v ∈ operands.1, SameDomain machine machine' v) :
    op.handler.apply machine operands = op.handler.apply machine' operands := by
  obtain ⟨operands, hlen⟩ := operands
  cases op with
  | add | equal | equalVerify =>
    obtain ⟨a, b, rfl⟩ := List.length_eq_two.1 hlen
    rfl
  | dup =>
    obtain ⟨a, rfl⟩ := List.length_eq_one_iff.1 hlen
    rfl
  | hash =>
    obtain ⟨a, rfl⟩ := List.length_eq_one_iff.1 hlen
    simp only [Opcode.handler, hhash]
  | checkSig =>
    obtain ⟨message, a, b, rfl⟩ := List.length_eq_three.1 hlen
    refine bind_congr fun sig => ?_
    cases b with
    | publicKey key =>
      have hkey := hoperands (.publicKey key) (by simp) key rfl
      simp only [operand, Value.asPublicKey?, ok_bind, checkSignature_congr hhash hkey]
    | _ => rfl

theorem step_congr (hs : ∀ v ∈ s.result, SameDomain machine machine' v) (text : String) :
    machine.step s text = machine'.step s text := by
  cases s with
  | halted => rfl
  | running stack =>
    cases reading stack text with
    | literal text v hv => rw [step_literal hv, step_literal hv]
    | underflow op hheight => rw [step_underflow hheight, step_underflow hheight]
    | operands op below operands hstack =>
      have hoperands : ∀ v ∈ operands.1, SameDomain machine machine' v := by
        intro v hv
        apply hs
        rw [hstack]
        exact List.mem_append_right below hv
      rw [hstack, step_op, step_op, apply_congr hhash hoperands]
    | unknown text hunknown => rw [step_unknown hunknown, step_unknown hunknown]

theorem runFrom_congr (hs : ∀ v ∈ s.result, SameDomain machine machine' v)
    (htokens : ∀ text ∈ tokens, ∀ v, Token.literal? text = some v → SameDomain machine machine' v) :
    machine.runFrom s tokens = machine'.runFrom s tokens := by
  have hplain : ∀ v : Value, v.IsPlain → SameDomain machine machine' v := by
    rintro _ hv key rfl
    cases hv
  -- Every public key that gets onto the stack comes from a literal, so the machines know the same
  -- domain for it as well.
  induction tokens generalizing s with
  | nil => rfl
  | cons text tokens ih =>
    obtain ⟨hfirst, hmore⟩ := List.forall_mem_cons.1 htokens
    rw [runFrom_cons, runFrom_cons, step_congr hhash hs]
    cases hstep : machine'.step s text with
    | error e => rfl
    | ok next => exact ih (forall_mem_of_step hplain hfirst hs hstep) hmore

end SameHash

end SigScript.Machine

namespace SigScript

/-- To register a curve changes nothing for a script without a key on that curve.  The keys that
matter are those in the literals of the script: at any point of a run, every signature and every
public key on the stack is the value of a literal that was run before. -/
theorem registration_affects_only_its_keys (machine : Machine) (tokens : List String) :
    (∀ curve domain,
      (∀ text ∈ tokens, ∀ key, Token.literal? text = some (.publicKey key) → key.curve ≠ curve) →
        (machine.withCurve curve domain).run tokens = machine.run tokens) ∧
    ∀ i s, machine.runFrom (.running []) (tokens.take i) = .ok s →
      ∀ v ∈ s.result, v.kind = .signature ∨ v.kind = .publicKey →
        ∃ text ∈ tokens.take i, Token.literal? text = some v := by
  constructor
  · intro curve domain hcurve
    have htokens : ∀ text ∈ tokens, ∀ v, Token.literal? text = some v →
        Machine.SameDomain (machine.withCurve curve domain) machine v := by
      rintro text htext _ hv key rfl
      exact Registry.get?_insert_of_ne machine.registry domain (hcurve text htext key hv)
    have hhash : (machine.withCurve curve domain).hash = machine.hash := rfl
    rw [Machine.run, Machine.run, Machine.runFrom_congr hhash (by simp [State.result]) htokens]
  · intro i s hrun v hv hkind
    obtain hplain | hliteral := Machine.isPlain_or_exists_literal hrun v hv
    · cases v <;> simp [Value.kind, Value.IsPlain] at hkind hplain
    · exact hliteral

/-- A key on one curve is checked in the same way with or without a domain for another curve. -/
theorem registration_affects_only_its_keys_other_curve :
    ((⟨.standard, .sha256⟩ : Machine).withCurve .secp256k1 .secp256r1).run
        ["0", "sig:MAYCAQECAQU=", "pubkey:MBowEwYHKoZIzj0CAQYIKoZIzj0DAQcDAwACAg==", "OP_CheckSig"] =
      (⟨.standard, .sha256⟩ : Machine).run
        ["0", "sig:MAYCAQECAQU=", "pubkey:MBowEwYHKoZIzj0CAQYIKoZIzj0DAQcDAwACAg==",
          "OP_CheckSig"] ∧
    ∃ text ∈ ["0", "sig:MAYCAQECAQU=", "OP_DUP"].take 3,
      Token.literal? text = some (.signature ⟨1, 5⟩) := by
  constructor
  · have hcurves : ∀ text ∈ ["0", "sig:MAYCAQECAQU=",
        "pubkey:MBowEwYHKoZIzj0CAQYIKoZIzj0DAQcDAwACAg==", "OP_CheckSig"],
        ((Token.literal? text).bind Value.asPublicKey?).map PublicKeyInfo.curve ≠
          some .secp256k1 := by decide +kernel
    refine (registration_affects_only_its_keys ⟨.standard, .sha256⟩ _).1 .secp256k1 .secp256r1 ?_
    intro text htext key hkey hcurve
    exact hcurves text htext (by rw [hkey, ← hcurve]; rfl)
  · exact (registration_affects_only_its_keys ⟨.standard, .sha256⟩ _).2 3
      (.running [.int 0, .signature ⟨1, 5⟩, .signature ⟨1, 5⟩]) (by decide +kernel)
      (.signature ⟨1, 5⟩) (by simp [State.result]) (.inl rfl)

end SigScript
