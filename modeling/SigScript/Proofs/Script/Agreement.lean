import Mathlib
import SigScript.Proofs.Script.Opcodes

/-!
# Values that agree

A script cannot tell values apart that agree.  These are the same but for booleans in the place of
integers (`agrees_iff_widened_eq`), and every view of an operand is the same for a boolean and for the
integer it counts as.  So an opcode has the same effect on operands that agree (`apply_agrees`), and so
have steps and runs (`step_agrees`, `runFrom_agrees`).  Only a failure shows the difference: it names
the type that an operand has instead of the one expected.
-/

namespace SigScript

/-! ### Values -/

namespace Value

variable {a a' b b' v w : Value}

/-- The value with a boolean replaced by the integer it counts as. -/
def widened : Value → Value
  | bool b => int b.toInt
  | v => v

/-- Values agree when they are the same but for booleans in the place of integers. -/
theorem agrees_iff_widened_eq : v.Agrees w ↔ v.widened = w.widened := by
  cases v <;> cases w <;> simp [Agrees, agree, asInt?, widened]

theorem asInt?_widened (v : Value) : v.widened.asInt? = v.asInt? := by
  cases v <;> rfl

theorem asSignature?_widened (v : Value) : v.widened.asSignature? = v.asSignature? := by
  cases v <;> rfl

theorem asPublicKey?_widened (v : Value) : v.widened.asPublicKey? = v.asPublicKey? := by
  cases v <;> rfl

/-- The integers 0 and 1 are written as the booleans that count as them. -/
theorem pieces_widened (v : Value) : v.widened.pieces = v.pieces := by
  cases v with
  | bool b => cases b <;> decide
  | _ => rfl

theorem agrees_equivalence : Equivalence Agrees where
  refl _ := agrees_iff_widened_eq.2 rfl
  symm h := agrees_iff_widened_eq.2 (agrees_iff_widened_eq.1 h).symm
  trans h h' :=
    agrees_iff_widened_eq.2 ((agrees_iff_widened_eq.1 h).trans (agrees_iff_widened_eq.1 h'))

namespace Agrees

theorem view_eq {α : Type} {view : Value → α} (hview : ∀ v, view v.widened = view v)
    (h : v.Agrees w) : view v = view w := by
  rw [← hview v, ← hview w, agrees_iff_widened_eq.1 h]

theorem pieces_eq (h : v.Agrees w) : v.pieces = w.pieces := h.view_eq pieces_widened

theorem agrees_iff_agrees (ha : a.Agrees a') (hb : b.Agrees b') : a.Agrees b ↔ a'.Agrees b' := by
  rw [agrees_iff_widened_eq] at ha hb
  rw [agrees_iff_widened_eq, agrees_iff_widened_eq, ha, hb]

end Agrees

end Value

/-! ### Failures, effects and states -/

/-- The same failure, but for the type that an operand is found to have. -/
inductive ScriptError.EqUpToActual : ScriptError → ScriptError → Prop
  | refl (e : ScriptError) : EqUpToActual e e
  | typeMismatch (op : Opcode) (position : Nat) (expected actual actual' : ValueKind) :
    EqUpToActual (.typeMismatch op position expected actual)
      (.typeMismatch op position expected actual')

/-- Effects that leave values that agree. -/
inductive Effect.Agrees : Effect → Effect → Prop
  | results {values values' : List Value} (h : List.Forall₂ Value.Agrees values values') :
    Agrees (.results values) (.results values')
  | verdict (sig : Signature) (valid : Bool) : Agrees (.verdict sig valid) (.verdict sig valid)
  | mismatch (left right left' right' : Value) :
    Agrees (.mismatch left right) (.mismatch left' right')

/-- States with stacks that agree value by value. -/
inductive State.Agrees : State → State → Prop
  | running {stack stack' : Stack} (h : List.Forall₂ Value.Agrees stack stack') :
    Agrees (.running stack) (.running stack')
  | halted : Agrees .halted .halted

theorem Stack.agrees_refl (stack : Stack) : List.Forall₂ Value.Agrees stack stack :=
  List.forall₂_same.2 fun v _ => Value.agrees_equivalence.refl v

theorem State.Agrees.result {s s' : State} (h : s.Agrees s') :
    List.Forall₂ Value.Agrees s.result s'.result := by
  cases h with
  | running h => exact h
  | halted => exact Stack.agrees_refl _

theorem Effect.Agrees.onto {effect effect' : Effect} (h : effect.Agrees effect')
    {below below' : Stack} (hbelow : List.Forall₂ Value.Agrees below below') :
    (effect.onto below).Agrees (effect'.onto below') := by
  cases h with
  | results h => exact .running (List.rel_append hbelow h)
  | verdict sig valid => exact .running (List.rel_append hbelow (Stack.agrees_refl _))
  | mismatch => exact .halted

/-! ### Steps and runs -/

namespace Machine

variable {machine : Machine} {op : Opcode} {s s' : State}

theorem operand_agrees {α : Type} {position : Nat} {expected : ValueKind}
    {view : Value → Option α} (hview : ∀ v, view v.widened = view v) {v w : Value}
    (h : v.Agrees w) :
    Alike ScriptError.EqUpToActual (· = ·) (operand op position expected view v)
      (operand op position expected view w) := by
  unfold operand
  rw [h.view_eq hview]
  cases view w with
  | some a => exact .ok rfl
  | none => exact .error (.typeMismatch op position expected v.kind w.kind)

theorem apply_agrees {operands operands' : Operands op.handler.needed}
    (h : List.Forall₂ Value.Agrees operands.1 operands'.1) :
    Alike ScriptError.EqUpToActual Effect.Agrees (op.handler.apply machine operands)
      (op.handler.apply machine operands') := by
  obtain ⟨operands, hlen⟩ := operands
  obtain ⟨operands', hlen'⟩ := operands'
  cases op with
  | add =>
    obtain ⟨a, b, rfl⟩ := List.length_eq_two.1 hlen
    obtain _ | ⟨ha, _ | ⟨hb, ⟨⟩⟩⟩ := h
    refine (operand_agrees Value.asInt?_widened ha).bind ?_
    rintro m _ rfl
    refine (operand_agrees Value.asInt?_widened hb).bind ?_
    rintro n _ rfl
    exact .ok (.results (Stack.agrees_refl _))
  | equal =>
    obtain ⟨a, b, rfl⟩ := List.length_eq_two.1 hlen
    obtain _ | ⟨ha, _ | ⟨hb, ⟨⟩⟩⟩ := h
    simp only [Opcode.handler, decide_eq_decide.2 (ha.agrees_iff_agrees hb)]
    exact .ok (.results (Stack.agrees_refl _))
  | equalVerify =>
    obtain ⟨a, b, rfl⟩ := List.length_eq_two.1 hlen
    obtain _ | ⟨ha, _ | ⟨hb, ⟨⟩⟩⟩ := h
    simp only [Opcode.handler]
    by_cases heq : a.Agrees b
    · rw [if_pos heq, if_pos ((ha.agrees_iff_agrees hb).1 heq)]
      exact .ok (.results .nil)
    · rw [if_neg heq, if_neg (mt (ha.agrees_iff_agrees hb).2 heq)]
      exact .ok (.mismatch _ _ _ _)
  | dup =>
    obtain ⟨a, rfl⟩ := List.length_eq_one_iff.1 hlen
    obtain _ | ⟨ha, ⟨⟩⟩ := h
    exact .ok (.results (.cons ha (.cons ha .nil)))
  | hash =>
    obtain ⟨a, rfl⟩ := List.length_eq_one_iff.1 hlen
    obtain _ | ⟨ha, ⟨⟩⟩ := h
    simp only [Opcode.handler, ha.pieces_eq]
    exact .bind_same .refl _ fun digest => .ok (.results (Stack.agrees_refl _))
  | checkSig =>
    obtain ⟨message, a, b, rfl⟩ := List.length_eq_three.1 hlen
    obtain _ | ⟨hmessage, _ | ⟨ha, _ | ⟨hb, ⟨⟩⟩⟩⟩ := h
    simp only [Opcode.handler, Value.octets, hmessage.pieces_eq]
    refine (operand_agrees Value.asSignature?_widened ha).bind ?_
    rintro sig _ rfl
    refine (operand_agrees Value.asPublicKey?_widened hb).bind ?_
    rintro key _ rfl
    exact .bind_same .refl _ fun valid => .ok (.verdict sig valid)

theorem step_agrees (h : s.Agrees s') (text : String) :
    Alike ScriptError.EqUpToActual State.Agrees (machine.step s text) (machine.step s' text) := by
  obtain h | ⟨⟩ := h
  · rename_i stack stack'
    cases reading stack' text with
    | literal text v hv =>
      rw [step_literal hv, step_literal hv]
      exact .ok (.running (List.rel_append h (Stack.agrees_refl [v])))
    | underflow op hheight =>
      rw [step_underflow (h.length_eq.trans_lt hheight), step_underflow hheight, h.length_eq]
      exact .error (.refl _)
    | operands op below' operands' hstack' =>
      subst hstack'
      have hbelow := List.forall₂_take_append _ _ _ h
      have hoperands := List.forall₂_drop_append _ _ _ h
      have hstep := @step_op machine op (stack.take below'.length)
        ⟨stack.drop below'.length, hoperands.length_eq.trans operands'.2⟩
      rw [List.take_append_drop] at hstep
      rw [hstep, step_op]
      exact (apply_agrees hoperands).map fun _ _ heffect => heffect.onto hbelow
    | unknown text hunknown =>
      rw [step_unknown hunknown, step_unknown hunknown]
      exact .error (.refl _)
  · exact .ok .halted

theorem runFrom_agrees (h : s.Agrees s') (tokens : List String) :
    Alike ScriptError.EqUpToActual State.Agrees (machine.runFrom s tokens)
      (machine.runFrom s' tokens) :=
  Alike.foldlM (fun _ _ text h => step_agrees h text) h tokens

end Machine

/-- Agreement is an equivalence in which booleans stand for 0 and 1, and it is kept by every
continuation of two scripts: with stacks that agree value by value, both end in such stacks again, or
both fail in the same way. -/
theorem agreement_is_congruence (machine : Machine) :
    Equivalence Value.Agrees ∧ (∀ b, (Value.bool b).Agrees (.int b.toInt)) ∧
    ∀ first second stack stack',
      machine.runFrom (.running []) first = .ok (.running stack) →
      machine.runFrom (.running []) second = .ok (.running stack') →
      List.Forall₂ Value.Agrees stack stack' → ∀ more,
        Alike ScriptError.EqUpToActual (List.Forall₂ Value.Agrees)
          (machine.run (first ++ more)) (machine.run (second ++ more)) := by
  refine ⟨Value.agrees_equivalence, fun b => Value.agrees_iff_widened_eq.2 rfl, ?_⟩
  intro first second stack stack' hfirst hsecond h more
  rw [Machine.run_append hfirst, Machine.run_append hsecond]
  exact (Machine.runFrom_agrees (.running h) more).map fun _ _ hs => hs.result

/-- A boolean for 1 is refused as a signature like the integer itself, though the failures name
different types. -/
theorem agreement_is_congruence_one :
    (⟨.standard, .sha256⟩ : Machine).run (["0", "1", "1", "EQUAL"] ++ ["0", "OP_CheckSig"]) =
      .error (.typeMismatch .checkSig 1 .signature .bool) ∧
    Alike ScriptError.EqUpToActual (List.Forall₂ Value.Agrees)
      ((⟨.standard, .sha256⟩ : Machine).run (["0", "1", "1", "EQUAL"] ++ ["0", "OP_CheckSig"]))
      ((⟨.standard, .sha256⟩ : Machine).run (["0", "1"] ++ ["0", "OP_CheckSig"])) := by
  refine ⟨by decide +kernel, ?_⟩
  exact (agreement_is_congruence _).2.2 _ _ [.int 0, .bool true] [.int 0, .int 1]
    (by decide +kernel) (by decide +kernel) (by decide) _

end SigScript
