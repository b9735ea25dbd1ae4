import Mathlib
import SigScript.Proofs.Digest.Pieces
import SigScript.Script.Machine

/-!
# What each opcode does

An opcode replaces its operands and leaves the stack below them alone (`step_op`); a stack that does
not hold them is an underflow (`step_underflow`).  So a step succeeds exactly when the stack ends with
operands that the opcode accepts (`step_op_eq_ok_iff`).  What it leaves is in `cases_of_apply`.

An opcode pops as many operands as its rule needs.  That these are as many as it is declared to take
(`Opcode.needed_handler`) makes the number in the failure of an underflow the declared one.
-/

namespace SigScript

/-! ### Tokens -/

theorem Token.parse_of_literal? {text : String} {v : Value} (h : literal? text = some v) :
    parse text = .ok (.push v) := by
  rw [parse, h]

theorem Token.literal?_mnemonic (op : Opcode) : literal? op.mnemonic = none := by
  cases op <;> decide +kernel

theorem Token.parse_mnemonic (op : Opcode) : parse op.mnemonic = .ok (.op op) := by
  rw [parse, literal?_mnemonic, Opcode.ofMnemonic?_eq_some_iff.2 rfl]

/-- A text is a literal, an opcode or neither, and then it fails. -/
theorem Token.cases_text (text : String) :
    (∃ v, literal? text = some v) ∨ (∃ op : Opcode, text = op.mnemonic) ∨
      parse text = .error (.unknownOpcode text) := by
  cases hliteral : literal? text with
  | some v => exact .inl ⟨v, rfl⟩
  | none =>
    right
    cases hop : Opcode.ofMnemonic? text with
    | some op => exact .inl ⟨op, (Opcode.ofMnemonic?_eq_some_iff.1 hop).symm⟩
    | none =>
      right
      simp only [parse, hliteral, hop]

theorem Value.agrees_bytes_iff {a b : Bytes} : (bytes a).Agrees (bytes b) ↔ a = b := by
  simp [Agrees, agree]

/-- An integer, a boolean or a byte string. -/
def Value.IsPlain : Value → Prop
  | int _ | bool _ | bytes _ => True
  | signature _ | publicKey _ => False

namespace Machine

variable {machine : Machine} {op : Opcode} {stack below : Stack} {s : State}

/-! ### Runs in parts -/

theorem run_eq_ok_iff {tokens : List String} :
    machine.run tokens = .ok stack ↔
      ∃ s, machine.runFrom (.running []) tokens = .ok s ∧ s.result = stack := map_eq_ok_iff

theorem run_append {first second : List String} (h : machine.runFrom (.running []) first = .ok s) :
    machine.run (first ++ second) = (machine.runFrom s second).map State.result := by
  rw [run, runFrom_append, h]
  rfl

theorem runFrom_append_eq_ok_iff {state : State} {first second : List String} :
    machine.runFrom state (first ++ second) = .ok s ↔
      ∃ next, machine.runFrom state first = .ok next ∧ machine.runFrom next second = .ok s := by
  rw [runFrom_append]
  exact bind_eq_ok_iff

theorem runFrom_cons_eq_ok_iff {state : State} {token : String} {rest : List String} :
    machine.runFrom state (token :: rest) = .ok s ↔
      ∃ next, machine.step state token = .ok next ∧ machine.runFrom next rest = .ok s := by
  rw [runFrom_cons]
  exact bind_eq_ok_iff

theorem runFrom_singleton (machine : Machine) (state : State) (token : String) :
    machine.runFrom state [token] = machine.step state token := by
  rw [runFrom_cons]
  cases machine.step state token <;> rfl

/-! ### Operands -/

theorem step_of_parse {text : String} {token : Token} (h : Token.parse text = .ok token) :
    machine.step (.running stack) text =
      (machine.perform stack token).map fun result => result.2.onto result.1 := by
  simp only [step, execute, h, ok_bind]
  cases machine.perform stack token with
  | error e => rfl
  | ok result => rfl

theorem step_unknown {text : String} {e : ScriptError} (h : Token.parse text = .error e) :
    machine.step (.running stack) text = .error e := by
  simp only [step, execute, h, error_bind]

theorem step_literal {text : String} {v : Value} (h : Token.literal? text = some v) :
    machine.step (.running stack) text = .ok (.running (stack ++ [v])) := by
  rw [step_of_parse (Token.parse_of_literal? h)]
  rfl

theorem pop_append (op : Opcode) (below : Stack) {needed : Nat} (operands : Operands needed) :
    pop op needed (below ++ operands.1) = .ok (below, operands) := by
  obtain ⟨operands, rfl⟩ := operands
  have hheight : (below ++ operands).length - operands.length = below.length := by
    rw [List.length_append, Nat.add_sub_cancel]
  rw [pop, dif_neg (by simp)]
  simp only [hheight, List.drop_left, List.take_left]

theorem pop_of_lt {needed : Nat} (h : stack.length < needed) :
    pop op needed stack = .error (.stackUnderflow op needed stack.length) := dif_pos h

theorem step_op (operands : Operands op.handler.needed) :
    machine.step (.running (below ++ operands.1)) op.mnemonic =
      (op.handler.apply machine operands).map (Effect.onto below) := by
  rw [step_of_parse (Token.parse_mnemonic op), perform]
  simp only [pop_append, ok_bind]
  cases op.handler.apply machine operands with
  | error e => rfl
  | ok effect => rfl

theorem step_underflow (h : stack.length < op.arity) :
    machine.step (.running stack) op.mnemonic =
      .error (.stackUnderflow op op.arity stack.length) := by
  rw [← op.needed_handler] at h ⊢
  rw [step_of_parse (Token.parse_mnemonic op), perform, pop_of_lt h]
  rfl

/-- A stack that is high enough ends with the operands of an opcode. -/
theorem exists_operands (h : op.arity ≤ stack.length) :
    ∃ (below : Stack) (operands : Operands op.handler.needed), stack = below ++ operands.1 := by
  rw [← op.needed_handler] at h
  refine ⟨stack.take (stack.length - op.handler.needed),
    ⟨stack.drop (stack.length - op.handler.needed), ?_⟩, (List.take_append_drop _ stack).symm⟩
  rw [List.length_drop]
  omega

/-- What a run can find in a text that it gets to with a stack. -/
inductive Reading (stack : Stack) : String → Prop
  | literal (text : String) (v : Value) (h : Token.literal? text = some v) : Reading stack text
  | underflow (op : Opcode) (h : stack.length < op.arity) : Reading stack op.mnemonic
  | operands (op : Opcode) (below : Stack) (operands : Operands op.handler.needed)
    (hstack : stack = below ++ operands.1) : Reading stack op.mnemonic
  | unknown (text : String) (h : Token.parse text = .error (.unknownOpcode text)) :
    Reading stack text

theorem reading (stack : Stack) (text : String) : Reading stack text := by
  rcases Token.cases_text text with ⟨v, hv⟩ | ⟨op, rfl⟩ | hunknown
  · exact .literal text v hv
  · by_cases hheight : stack.length < op.arity
    · exact .underflow op hheight
    · obtain ⟨below, operands, hstack⟩ := exists_operands (not_lt.1 hheight)
      exact .operands op below operands hstack
  · exact .unknown text hunknown

theorem step_op_eq_ok_iff :
    machine.step (.running stack) op.mnemonic = .ok s ↔
      ∃ below operands effect, stack = below ++ operands.1 ∧
        op.handler.apply machine operands = .ok effect ∧ effect.onto below = s := by
  constructor
  · intro h
    by_cases hlen : stack.length < op.arity
    · rw [step_underflow hlen] at h
      cases h
    · obtain ⟨below, operands, rfl⟩ := exists_operands (not_lt.1 hlen)
      rw [step_op operands] at h
      obtain ⟨effect, heffect, hs⟩ := map_eq_ok_iff.1 h
      exact ⟨below, operands, effect, rfl, heffect, hs⟩
  · rintro ⟨below, operands, effect, rfl, heffect, rfl⟩
    rw [step_op operands, heffect, map_ok]

/-- What an opcode leaves in the place of its operands: a plain value that it computed, its operand
twice, or nothing, unless it halts the run. -/
theorem cases_of_apply {operands : Operands op.handler.needed} {effect : Effect}
    (h : op.handler.apply machine operands = .ok effect) (below : Stack) :
    (op ∈ [.add, .equal, .hash, .checkSig] ∧
      ∃ v : Value, v.IsPlain ∧ effect.onto below = .running (below ++ [v])) ∨
    (op = .dup ∧ ∃ a, operands.1 = [a] ∧ effect.onto below = .running (below ++ [a, a])) ∨
    (op = .equalVerify ∧ (effect.onto below = .running below ∨ effect.onto below = .halted)) := by
  obtain ⟨operands, hlen⟩ := operands
  cases op with
  | add =>
    obtain ⟨a, b, rfl⟩ := List.length_eq_two.1 hlen
    obtain ⟨m, -, h⟩ := bind_eq_ok_iff.1 h
    obtain ⟨n, -, h⟩ := bind_eq_ok_iff.1 h
    cases h
    exact .inl ⟨by decide, .int (m + n), trivial, rfl⟩
  | equal =>
    obtain ⟨a, b, rfl⟩ := List.length_eq_two.1 hlen
    cases h
    exact .inl ⟨by decide, .bool (a.Agrees b), trivial, rfl⟩
  | equalVerify =>
    obtain ⟨a, b, rfl⟩ := List.length_eq_two.1 hlen
    cases h
    refine .inr (.inr ⟨rfl, ?_⟩)
    split
    · exact .inl (by rw [Effect.onto, List.append_nil])
    · exact .inr rfl
  | dup =>
    obtain ⟨a, rfl⟩ := List.length_eq_one_iff.1 hlen
    cases h
    exact .inr (.inl ⟨rfl, a, rfl, rfl⟩)
  | hash =>
    obtain ⟨a, rfl⟩ := List.length_eq_one_iff.1 hlen
    obtain ⟨digest, -, h⟩ := bind_eq_ok_iff.1 h
    cases h
    exact .inl ⟨by decide, .bytes digest, trivial, rfl⟩
  | checkSig =>
    obtain ⟨message, a, b, rfl⟩ := List.length_eq_three.1 hlen
    obtain ⟨sig, -, h⟩ := bind_eq_ok_iff.1 h
    obtain ⟨key, -, h⟩ := bind_eq_ok_iff.1 h
    obtain ⟨valid, -, h⟩ := bind_eq_ok_iff.1 h
    cases h
    exact .inl ⟨by decide, .bool valid, trivial, rfl⟩

/-! ### Single opcodes -/

theorem step_dup_eq_ok_iff :
    machine.step (.running stack) Opcode.dup.mnemonic = .ok s ↔
      ∃ below a, stack = below ++ [a] ∧ s = .running (stack ++ [a]) := by
  rw [step_op_eq_ok_iff]
  constructor
  · rintro ⟨below, ⟨operands, hlen⟩, effect, rfl, heffect, rfl⟩
    obtain ⟨a, rfl⟩ := List.length_eq_one_iff.1 hlen
    cases heffect
    exact ⟨below, a, rfl, by rw [Effect.onto, List.append_assoc, List.singleton_append]⟩
  · rintro ⟨below, a, rfl, rfl⟩
    refine ⟨below, ⟨[a], rfl⟩, .results [a, a], rfl, rfl, ?_⟩
    rw [Effect.onto, List.append_assoc, List.singleton_append]

theorem step_hash (machine : Machine) (below : Stack) (a : Value) :
    machine.step (.running (below ++ [a])) Opcode.hash.mnemonic =
      ((machine.hash.digest a.octets).mapError .crypto).map
        fun digest => .running (below ++ [.bytes digest]) := by
  have hstep := @step_op machine .hash below ⟨[a], rfl⟩
  rw [hstep, Value.octets, ← HashAlgorithm.digestAll_eq]
  simp only [Opcode.handler]
  cases (machine.hash.digestAll a.pieces).mapError ScriptError.crypto with
  | error e => rfl
  | ok digest => rfl

theorem step_hash_eq_ok_iff {a : Value} :
    machine.step (.running (below ++ [a])) Opcode.hash.mnemonic = .ok s ↔
      ∃ digest, machine.hash.digest a.octets = .ok digest ∧
        s = .running (below ++ [.bytes digest]) := by
  rw [step_hash, map_eq_ok_iff]
  constructor
  · rintro ⟨digest, hdigest, rfl⟩
    exact ⟨digest, mapError_eq_ok_iff.1 hdigest, rfl⟩
  · rintro ⟨digest, hdigest, rfl⟩
    exact ⟨digest, mapError_eq_ok_iff.2 hdigest, rfl⟩

theorem step_equalVerify (a b : Value) :
    machine.step (.running (below ++ [a, b])) Opcode.equalVerify.mnemonic =
      .ok (if a.Agrees b then .running below else .halted) := by
  have hstep := @step_op machine .equalVerify below ⟨[a, b], rfl⟩
  rw [hstep]
  simp only [Opcode.handler]
  by_cases h : a.Agrees b
  · rw [if_pos h, if_pos h, map_ok, Effect.onto, List.append_nil]
  · rw [if_neg h, if_neg h, map_ok, Effect.onto]

theorem checkSignature_eq_ok_iff {message : Bytes} {sig : Signature} {key : PublicKeyInfo}
    {valid : Bool} :
    machine.checkSignature message sig key = .ok valid ↔
      key.IsEc ∧ ∃ domain point, machine.registry.get? key.curve = some domain ∧
        CurvePoint.ofOctets domain key.point = .ok point ∧
        Ecdsa.verify ⟨domain, machine.hash⟩ point message sig = .ok valid := by
  rw [checkSignature]
  by_cases hec : key.IsEc
  · rw [if_neg (not_not.2 hec)]
    cases hcurve : machine.registry.get? key.curve with
    | none => simp
    | some domain =>
      constructor
      · intro h
        obtain ⟨point, hpoint, hvalid⟩ := bind_eq_ok_iff.1 h
        exact ⟨hec, domain, point, rfl, mapError_eq_ok_iff.1 hpoint, mapError_eq_ok_iff.1 hvalid⟩
      · rintro ⟨-, domain, point, ⟨⟩, hpoint, hvalid⟩
        exact bind_eq_ok_iff.2
          ⟨point, mapError_eq_ok_iff.2 hpoint, mapError_eq_ok_iff.2 hvalid⟩
  · rw [if_pos hec]
    simp [hec]

theorem step_checkSig (below : Stack) (message : Value) (sig : Signature) (key : PublicKeyInfo) :
    machine.step (.running (below ++ [message, .signature sig, .publicKey key]))
        Opcode.checkSig.mnemonic =
      (machine.checkSignature message.octets sig key).map
        fun valid => .running (below ++ [.bool valid]) := by
  have hstep := @step_op machine .checkSig below ⟨[message, .signature sig, .publicKey key], rfl⟩
  rw [hstep]
  simp only [Opcode.handler, operand, Value.asSignature?, Value.asPublicKey?, ok_bind]
  cases machine.checkSignature message.octets sig key <;> rfl

theorem step_checkSig_eq_ok_iff :
    machine.step (.running stack) Opcode.checkSig.mnemonic = .ok s ↔
      ∃ below message sig key valid,
        stack = below ++ [message, .signature sig, .publicKey key] ∧
        machine.checkSignature message.octets sig key = .ok valid ∧
        s = .running (below ++ [.bool valid]) := by
  constructor
  · intro h
    obtain ⟨below, ⟨operands, hlen⟩, effect, rfl, heffect, rfl⟩ := step_op_eq_ok_iff.1 h
    obtain ⟨message, a, b, rfl⟩ := List.length_eq_three.1 hlen
    obtain ⟨sig, hsig, heffect⟩ := bind_eq_ok_iff.1 heffect
    obtain ⟨key, hkey, heffect⟩ := bind_eq_ok_iff.1 heffect
    obtain ⟨valid, hvalid, heffect⟩ := bind_eq_ok_iff.1 heffect
    cases heffect
    -- Only a signature and a public key have the views that the opcode asks for.
    cases a <;> cases hsig
    cases b <;> cases hkey
    exact ⟨below, message, sig, key, valid, rfl, hvalid, rfl⟩
  · rintro ⟨below, message, sig, key, valid, rfl, hvalid, rfl⟩
    rw [step_checkSig, hvalid, map_ok]

end Machine

end SigScript
