import Mathlib
import SigScript.Proofs.Script.Opcodes

/-!
# Scripts on top of a stack

A script never looks below its own operands.  On top of other values a step does what it does without
them, and so does a run (`step_above`, `runFrom_above`).  An underflow is the one exception: values
below may be the operands that were missing.
-/

namespace SigScript

/-- A computation that breaks off with an underflow. -/
def Underflows {α : Type} (x : Except ScriptError α) : Prop :=
  ∃ op needed available, x = .error (.stackUnderflow op needed available)

theorem Underflows.bind {α β : Type} {x : Except ScriptError α} (h : Underflows x)
    (f : α → Except ScriptError β) : Underflows (x >>= f) := by
  obtain ⟨op, needed, available, rfl⟩ := h
  exact ⟨op, needed, available, rfl⟩

/-- The state with values below its stack.  A halted run has no stack that they could be below. -/
def State.above (below : Stack) : State → State
  | running stack => running (below ++ stack)
  | halted => halted

theorem Effect.onto_append (below stack : Stack) (effect : Effect) :
    effect.onto (below ++ stack) = (effect.onto stack).above below := by
  cases effect <;> simp [onto, State.above]

namespace Machine

variable {machine : Machine} {below : Stack} {s : State} {text : String} {tokens : List String}

theorem step_above (h : ¬Underflows (machine.step s text)) :
    machine.step (s.above below) text = (machine.step s text).map (State.above below) := by
  cases s with
  | halted => rfl
  | running stack =>
    rw [State.above]
    cases reading stack text with
    | literal text v hv =>
      rw [step_literal hv, step_literal hv, map_ok, State.above, List.append_assoc]
    | underflow op hheight => exact absurd ⟨op, _, _, step_underflow hheight⟩ h
    | operands op lower operands hstack =>
      rw [hstack, ← List.append_assoc, step_op, step_op]
      cases op.handler.apply machine operands with
      | error e => rfl
      | ok effect => rw [map_ok, map_ok, map_ok, Effect.onto_append]
    | unknown text hunknown =>
      rw [step_unknown hunknown, step_unknown hunknown]
      rfl

theorem runFrom_above (h : ¬Underflows (machine.runFrom s tokens)) :
    machine.runFrom (s.above below) tokens =
      (machine.runFrom s tokens).map (State.above below) := by
  induction tokens generalizing s with
  | nil => rfl
  | cons token tokens ih =>
    rw [runFrom_cons] at h ⊢
    rw [runFrom_cons, step_above fun hstep => h (hstep.bind _)]
    cases hstep : machine.step s token with
    | error e => rfl
    | ok next =>
      rw [hstep] at h
      exact ih h

theorem run_above {first second : List String}
    (h : machine.runFrom (.running []) first = .ok (.running below))
    (hsecond : ¬Underflows (machine.runFrom (.running []) second)) :
    machine.run (first ++ second) =
      (machine.runFrom (.running []) second).map fun s => (s.above below).result := by
  have habove : machine.runFrom (.running below) second =
      (machine.runFrom (.running []) second).map (State.above below) := by
    rw [← runFrom_above hsecond, State.above, List.append_nil]
  rw [run_append h, habove]
  cases machine.runFrom (.running []) second <;> rfl

theorem run_above_of_ok {first second : List String}
    (h : machine.runFrom (.running []) first = .ok (.running below))
    (hsecond : machine.runFrom (.running []) second = .ok s) :
    machine.run (first ++ second) = .ok (s.above below).result := by
  have hunderflow : ¬Underflows (machine.runFrom (.running []) second) := by
    rw [hsecond]
    exact nofun
  rw [run_above h hunderflow, hsecond, map_ok]

end Machine

/-- A script behind another one does on its stack what it does alone: it leaves the same values on top
of the stack, it halts, or it is broken off for the same reason, unless that was an underflow. -/
theorem run_on_top {machine : Machine} {first : List String} {bottom : Stack}
    (h : machine.runFrom (.running []) first = .ok (.running bottom)) (second : List String) :
    (∀ stack, machine.runFrom (.running []) second = .ok (.running stack) →
      machine.run (first ++ second) = .ok (bottom ++ stack)) ∧
    (machine.runFrom (.running []) second = .ok .halted →
      machine.run (first ++ second) = .ok [.bool false]) ∧
    ∀ e, machine.run second = .error e →
      (∀ op needed available, e ≠ .stackUnderflow op needed available) →
      machine.run (first ++ second) = .error e := by
  refine ⟨?_, ?_, ?_⟩
  · intro stack hstack
    exact Machine.run_above_of_ok h hstack
  · intro hhalted
    exact Machine.run_above_of_ok h hhalted
  · intro e hrun he
    have herror := map_eq_error_iff.1 hrun
    have hsecond : ¬Underflows (machine.runFrom (.running []) second) := by
      rintro ⟨op, needed, available, hflow⟩
      exact he op needed available (Except.error.inj (herror.symm.trans hflow))
    rw [Machine.run_above h hsecond, herror]
    rfl

/-- Two sevens stay below a sum.  They are gone when two values do not agree, and they do not keep
octets from being refused as a summand. -/
theorem run_on_top_of_sevens :
    (⟨.standard, .sha256⟩ : Machine).runFrom (.running []) ["7", "OP_DUP"] =
      .ok (.running [.int 7, .int 7]) ∧
    (⟨.standard, .sha256⟩ : Machine).run (["7", "OP_DUP"] ++ ["2", "3", "ADD"]) =
      .ok [.int 7, .int 7, .int 5] ∧
    (⟨.standard, .sha256⟩ : Machine).run (["7", "OP_DUP"] ++ ["2", "3", "OP_EqualVerify", "end"]) =
      .ok [.bool false] ∧
    (⟨.standard, .sha256⟩ : Machine).run (["7", "OP_DUP"] ++ ["base64:", "3", "ADD"]) =
      .error (.typeMismatch .add 0 .int .bytes) := by
  have hsevens : (⟨.standard, .sha256⟩ : Machine).runFrom (.running []) ["7", "OP_DUP"] =
      .ok (.running [.int 7, .int 7]) := by decide +kernel
  refine ⟨hsevens, ?_, ?_, ?_⟩
  · exact (run_on_top hsevens _).1 [.int 5] (by decide +kernel)
  · exact (run_on_top hsevens _).2.1 (by decide +kernel)
  · exact (run_on_top hsevens _).2.2 _ (by decide +kernel) nofun

end SigScript
