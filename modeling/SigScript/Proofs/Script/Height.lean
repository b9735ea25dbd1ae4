import Mathlib
import SigScript.Proofs.Script.Frame
import SigScript.Proofs.Script.Prefix

/-!
# The height of the stack

How high the stack stands before a token can be told from the tokens alone: each of them makes it
higher or lower by a fixed number of values, whatever the values are (`length_of_step`,
`length_of_runFrom`).  So it can also be told from the tokens which of them underflows: only an opcode
that finds less operands than it is declared to take does (`step_eq_underflow_iff`), and then no
operand is looked at.
-/

namespace SigScript

/-! ### Tokens -/

/-- The number of values that an opcode leaves, less the number of those that it takes. -/
def Opcode.growth : Opcode → Int
  | add | equal => -1
  | equalVerify => -2
  | dup => 1
  | hash => 0
  | checkSig => -2

/-- By how many values a token makes the stack higher. -/
def Token.growth : Token → Int
  | push _ => 1
  | op opcode => opcode.growth

/-- By how many values the token of a text makes the stack higher.  A text without a token stops the
run instead. -/
def Token.growthOfText (text : String) : Int :=
  match parse text with
  | .ok token => token.growth
  | .error _ => 0

/-- The height of the stack behind tokens that neither fail nor halt the run. -/
def Stack.heightAfter (tokens : List String) : Int := (tokens.map Token.growthOfText).sum

theorem Token.growthOfText_of_literal? {text : String} {v : Value} (h : literal? text = some v) :
    growthOfText text = 1 := by
  rw [growthOfText, parse_of_literal? h]
  rfl

theorem Token.growthOfText_mnemonic (op : Opcode) : growthOfText op.mnemonic = op.growth := by
  rw [growthOfText, parse_mnemonic]
  rfl

namespace Machine

variable {machine : Machine} {op : Opcode} {below stack stack' : Stack} {text : String}
  {tokens : List String} {operands : Operands op.handler.needed} {effect : Effect}

/-! ### Steps and runs -/

theorem length_of_apply (h : op.handler.apply machine operands = .ok effect)
    (hstack : effect.onto below = .running stack) :
    (stack.length : Int) = (below ++ operands.1).length + op.growth := by
  rw [List.length_append, operands.2, op.needed_handler]
  obtain ⟨hop, v, -, honto⟩ | ⟨rfl, a, -, honto⟩ | ⟨rfl, honto | honto⟩ := cases_of_apply h below
  · rw [honto] at hstack
    cases hstack
    -- One value takes the place of all operands.
    have hgrowth : (op.arity : Int) + op.growth = 1 := by
      simp only [List.mem_cons, List.not_mem_nil, or_false] at hop
      rcases hop with rfl | rfl | rfl | rfl <;> rfl
    rw [List.length_append, List.length_singleton]
    omega
  · rw [honto] at hstack
    cases hstack
    simp [Opcode.arity, Opcode.growth]
    omega
  · rw [honto] at hstack
    cases hstack
    simp [Opcode.arity, Opcode.growth]
  · rw [honto] at hstack
    cases hstack

theorem length_of_step (h : machine.step (.running stack) text = .ok (.running stack')) :
    (stack'.length : Int) = stack.length + Token.growthOfText text := by
  rcases Token.cases_text text with ⟨v, hv⟩ | ⟨op, rfl⟩ | hunknown
  · rw [step_literal hv] at h
    cases h
    simp [Token.growthOfText_of_literal? hv]
  · obtain ⟨below, operands, effect, rfl, heffect, hstack⟩ := step_op_eq_ok_iff.1 h
    rw [Token.growthOfText_mnemonic]
    exact length_of_apply heffect hstack
  · rw [step_unknown hunknown] at h
    cases h

theorem length_of_runFrom
    (h : machine.runFrom (.running stack) tokens = .ok (.running stack')) :
    (stack'.length : Int) = stack.length + Stack.heightAfter tokens := by
  induction tokens generalizing stack with
  | nil =>
    cases h
    simp [Stack.heightAfter]
  | cons text tokens ih =>
    obtain ⟨next, hstep, hrest⟩ := runFrom_cons_eq_ok_iff.1 h
    cases next with
    | halted =>
      -- A run that was halted does not end in a stack.
      rw [runFrom_halted] at hrest
      cases hrest
    | running middle =>
      rw [ih hrest, length_of_step hstep, Stack.heightAfter, Stack.heightAfter, List.map_cons,
        List.sum_cons, add_assoc]

theorem Reaches.length_eq {i : Nat} (h : machine.Reaches tokens i stack) :
    (stack.length : Int) = Stack.heightAfter (tokens.take i) := by
  rw [length_of_runFrom h.2, List.length_nil, Nat.cast_zero, zero_add]

/-! ### Underflows -/

theorem not_underflows_bind {α β : Type} {x : Except ScriptError α} {f : α → Except ScriptError β}
    (hx : ¬Underflows x) (hf : ∀ a, ¬Underflows (f a)) : ¬Underflows (x >>= f) := by
  cases x with
  | ok a => exact hf a
  | error e =>
    rintro ⟨op, needed, available, ⟨⟩⟩
    exact hx ⟨op, needed, available, rfl⟩

theorem not_underflows_ok {α : Type} (a : α) : ¬Underflows (.ok a : Except ScriptError α) := nofun

theorem not_underflows_operand {α : Type} {position : Nat} {expected : ValueKind}
    {view : Value → Option α} {v : Value} :
    ¬Underflows (operand op position expected view v) := by
  unfold operand
  cases view v with
  | some a => exact not_underflows_ok a
  | none => nofun

theorem not_underflows_crypto {α : Type} {x : Except CryptoError α} :
    ¬Underflows (x.mapError .crypto) := by
  cases x with
  | ok a => exact not_underflows_ok a
  | error e => nofun

theorem not_underflows_checkSignature {message : Bytes} {sig : Signature} {key : PublicKeyInfo} :
    ¬Underflows (machine.checkSignature message sig key) := by
  unfold checkSignature
  split
  · nofun
  · split
    · nofun
    · exact not_underflows_bind not_underflows_crypto fun point => not_underflows_crypto

/-- An opcode that finds as many operands as it takes does not underflow. -/
theorem not_underflows_apply (operands : Operands op.handler.needed) :
    ¬Underflows (op.handler.apply machine operands) := by
  obtain ⟨operands, hlen⟩ := operands
  cases op with
  | add =>
    obtain ⟨a, b, rfl⟩ := List.length_eq_two.1 hlen
    refine not_underflows_bind not_underflows_operand fun m => ?_
    exact not_underflows_bind not_underflows_operand fun n => not_underflows_ok _
  | equal =>
    obtain ⟨a, b, rfl⟩ := List.length_eq_two.1 hlen
    exact not_underflows_ok _
  | equalVerify =>
    obtain ⟨a, b, rfl⟩ := List.length_eq_two.1 hlen
    exact not_underflows_ok _
  | dup =>
    obtain ⟨a, rfl⟩ := List.length_eq_one_iff.1 hlen
    exact not_underflows_ok _
  | hash =>
    obtain ⟨a, rfl⟩ := List.length_eq_one_iff.1 hlen
    exact not_underflows_bind not_underflows_crypto fun digest => not_underflows_ok _
  | checkSig =>
    obtain ⟨message, a, b, rfl⟩ := List.length_eq_three.1 hlen
    refine not_underflows_bind not_underflows_operand fun sig => ?_
    refine not_underflows_bind not_underflows_operand fun key => ?_
    exact not_underflows_bind not_underflows_checkSignature fun valid => not_underflows_ok _

theorem step_eq_underflow_iff {needed available : Nat} :
    machine.step (.running stack) text = .error (.stackUnderflow op needed available) ↔
      text = op.mnemonic ∧ needed = op.arity ∧ stack.length = available ∧ available < needed := by
  constructor
  · intro h
    cases reading stack text with
    | literal text v hv =>
      rw [step_literal hv] at h
      cases h
    | underflow op' hheight =>
      rw [step_underflow hheight] at h
      cases h
      exact ⟨rfl, rfl, rfl, hheight⟩
    | operands op' below operands hstack =>
      rw [hstack, step_op, map_eq_error_iff] at h
      exact absurd ⟨op, needed, available, h⟩ (not_underflows_apply operands)
    | unknown text hunknown =>
      rw [step_unknown hunknown] at h
      cases h
  · rintro ⟨rfl, rfl, rfl, hheight⟩
    exact step_underflow hheight

theorem stopsAt_underflow_iff {i needed available : Nat} :
    machine.StopsAt tokens i (.error (.stackUnderflow op needed available)) ↔
      (∃ stack, machine.Reaches tokens i stack) ∧ tokens[i]? = some op.mnemonic ∧
        needed = op.arity ∧ Stack.heightAfter (tokens.take i) = available ∧ available < needed := by
  constructor
  · rintro ⟨-, stack, text, hreaches, htext, hstep⟩
    obtain ⟨rfl, hneeded, rfl, hheight⟩ := step_eq_underflow_iff.1 hstep
    exact ⟨⟨stack, hreaches⟩, htext, hneeded, hreaches.length_eq.symm, hheight⟩
  · rintro ⟨⟨stack, hreaches⟩, htext, hneeded, havailable, hheight⟩
    have hlength : stack.length = available := by
      rw [← hreaches.length_eq] at havailable
      exact Nat.cast_injective havailable
    exact ⟨.failed _, stack, _, hreaches, htext,
      step_eq_underflow_iff.2 ⟨rfl, hneeded, hlength, hheight⟩⟩

end Machine

/-- How high the stack stands is settled by the tokens alone, whatever the values on it are: before
every token that the run reaches, and behind the last one.  A run ends with an underflow at a token
exactly when it reaches the token and this is an opcode that is declared to take more operands than the
tokens before it leave.  The failure names the opcode with this number, and tells how many there are;
no operand of a wrong type is reported first. -/
theorem stack_height_is_static (machine : Machine) (tokens : List String) :
    (∀ i stack, machine.Reaches tokens i stack →
      (stack.length : Int) = Stack.heightAfter (tokens.take i)) ∧
    (∀ op needed available, machine.run tokens = .error (.stackUnderflow op needed available) ↔
      ∃ i, machine.StopsAt tokens i (.error (.stackUnderflow op needed available))) ∧
    (∀ i op needed available,
      machine.StopsAt tokens i (.error (.stackUnderflow op needed available)) ↔
        (∃ stack, machine.Reaches tokens i stack) ∧ tokens[i]? = some op.mnemonic ∧
          needed = op.arity ∧ Stack.heightAfter (tokens.take i) = available ∧
          available < needed) ∧
    ∀ stack, machine.runFrom (.running []) tokens = .ok (.running stack) →
      machine.run tokens = .ok stack ∧ (stack.length : Int) = Stack.heightAfter tokens := by
  refine ⟨?_, ?_, ?_, ?_⟩
  · intro i stack hreaches
    exact hreaches.length_eq
  · intro op needed available
    rw [Machine.run, map_eq_error_iff]
    exact Machine.runFrom_eq_iff_exists_stopsAt (.failed _)
  · intro i op needed available
    exact Machine.stopsAt_underflow_iff
  · intro stack hstack
    have hlength := Machine.length_of_runFrom hstack
    rw [List.length_nil, Nat.cast_zero, zero_add] at hlength
    exact ⟨Machine.run_eq_ok_iff.2 ⟨_, hstack, rfl⟩, hlength⟩

/-- Octets are no number, but a sum that finds nothing else fails because of what is missing.  Where
three values are asked for, the tokens before leave one. -/
theorem stack_height_is_static_missing :
    (⟨.standard, .sha256⟩ : Machine).run ["base64:", "ADD", "0"] =
      .error (.stackUnderflow .add 2 1) ∧
    (⟨.standard, .sha256⟩ : Machine).StopsAt ["1", "OP_DUP", "ADD", "OP_CheckSig"] 3
      (.error (.stackUnderflow .checkSig 3 1)) ∧
    ([.int 1, .int 1] : Stack).length =
      Stack.heightAfter (["1", "OP_DUP", "ADD", "OP_CheckSig"].take 2) ∧
    ([.bool true] : Stack).length = Stack.heightAfter ["1", "OP_DUP", "EQUAL"] := by
  have hmissing := stack_height_is_static ⟨.standard, .sha256⟩ ["base64:", "ADD", "0"]
  have hthree := stack_height_is_static ⟨.standard, .sha256⟩ ["1", "OP_DUP", "ADD", "OP_CheckSig"]
  refine ⟨?_, ?_, ?_, ?_⟩
  · refine (hmissing.2.1 .add 2 1).2 ⟨1, (hmissing.2.2.1 1 .add 2 1).2 ⟨⟨[.bytes []], ?_⟩, ?_⟩⟩
    · exact ⟨by decide, by decide +kernel⟩
    · exact ⟨rfl, rfl, by decide +kernel, by decide⟩
  · refine (hthree.2.2.1 3 .checkSig 3 1).2 ⟨⟨[.int 2], by decide, by decide +kernel⟩, ?_⟩
    exact ⟨rfl, rfl, by decide +kernel, by decide⟩
  · exact hthree.1 2 _ ⟨by decide, by decide +kernel⟩
  · exact ((stack_height_is_static ⟨.standard, .sha256⟩ ["1", "OP_DUP", "EQUAL"]).2.2.2 _
      (by decide +kernel)).2

end SigScript
