import SigScript.Log
import SigScript.Script.Machine

/-!
# Traces of runs

A trace lists what happens in a run, one event after the other, beside the result of the run.  It
changes nothing about the result (`trace_snd`).
-/

namespace SigScript

/-- Something worth telling about a run. -/
inductive Event where
  /-- The run gets to a token. -/
  | reached (position : Nat) (token : String) (stack : Stack)
  /-- A signature was checked. -/
  | verdict (sig : Signature) (valid : Bool)
  /-- Two values that have to agree do not. -/
  | mismatch (left right : Value)
  /-- A halted run leaves tokens out, the first of them at a position. -/
  | skipped (position : Nat) (token : String) (remaining : Nat)
  /-- The last token halted the run. -/
  | haltedAtEnd
  /-- The run got to its end with a stack. -/
  | finished (stack : Stack)
  deriving DecidableEq, Repr

namespace Event

/-- Events of every run are for debugging only; those of a halted run are not. -/
def level : Event → Level
  | reached .. | verdict .. | finished .. => .debug
  | mismatch .. | skipped .. | haltedAtEnd => .info

/-- The text of an event. -/
def message : Event → String
  | reached position token stack =>
    Numeral.decimal position ++ ": " ++ token ++ " on " ++ Stack.text stack
  | verdict sig valid =>
    Opcode.checkSig.mnemonic ++ ": signature " ++ sig.text ++ " is " ++
      (if valid then "valid" else "invalid")
  | mismatch left right =>
    Opcode.equalVerify.mnemonic ++ " failed: " ++ left.text ++ " != " ++ right.text
  | skipped position token remaining =>
    "halted before token " ++ Numeral.decimal position ++ " (" ++ token ++ "), skipping " ++
      Numeral.decimal remaining ++ " tokens"
  | haltedAtEnd => "halted by the final token"
  | finished stack => "result " ++ Stack.text stack

/-- The log record of an event. -/
def record (event : Event) : Record := ⟨event.level, event.message⟩

end Event

/-- The event of an effect, if it is worth telling. -/
def Effect.event? : Effect → Option Event
  | results _ => none
  | verdict sig valid => some (.verdict sig valid)
  | mismatch left right => some (.mismatch left right)

namespace Machine

/-- The events of a run that goes on from a state, with its result.  `position` counts the tokens
before. -/
def trace (machine : Machine) (position : Nat) :
    State → List String → List Event × Except ScriptError Stack
  | .halted, [] => ([.haltedAtEnd], .ok State.halted.result)
  | .halted, token :: rest =>
    ([.skipped position token (rest.length + 1)], .ok State.halted.result)
  | .running stack, [] => ([.finished stack], .ok stack)
  | .running stack, token :: rest =>
    match machine.execute stack token with
    | .error e => ([.reached position token stack], .error e)
    | .ok (below, effect) =>
      let (events, result) := machine.trace (position + 1) (effect.onto below) rest
      (.reached position token stack :: effect.event?.toList ++ events, result)

theorem trace_snd (machine : Machine) (position : Nat) (state : State) (tokens : List String) :
    (machine.trace position state tokens).2 =
      (machine.runFrom state tokens).map State.result := by
  fun_induction trace machine position state tokens with
  | case1 => rfl
  | case2 => rw [runFrom_halted]; rfl
  | case3 => rfl
  | case4 position stack token rest e he =>
    rw [runFrom_cons, step, he]
    rfl
  | case5 position stack token rest below effect he events result heq ih =>
    rw [runFrom_cons, step, he]
    rw [heq] at ih
    exact ih

end Machine

end SigScript
