import SigScript.Curve.Registry
import SigScript.Ecdsa.Scheme
import SigScript.Script.Token

/-!
# Running scripts

A script is a list of texts.  Each text is read as a token only when the run gets to it, so what
stands behind the end of a run is never looked at.  A run keeps a stack until it is halted, and a
halted run has the stack with the single value `false` as its result (`run`).  An opcode sees no more
of the stack than its operands, as many as its own rule needs (`Opcode.handler`, `pop`).
-/

namespace SigScript

/-- What scripts run with: the curves that public keys may name, and the hash function of `OP_HASH`
and of signatures. -/
structure Machine where
  registry : Registry := .standard
  hash : HashAlgorithm := default
  deriving DecidableEq, Repr

/-- Where a run stands. -/
inductive State where
  | running (stack : Stack)
  | halted
  deriving DecidableEq, Repr

/-- The stack that a run ends with. -/
def State.result : State → Stack
  | running stack => stack
  | halted => [.bool false]

/-- What a token does to the top of the stack. -/
inductive Effect where
  /-- Values take the place of the operands. -/
  | results (values : List Value)
  /-- The verdict on a signature takes the place of the operands. -/
  | verdict (sig : Signature) (valid : Bool)
  /-- Two values that have to agree do not, which halts the run. -/
  | mismatch (left right : Value)
  deriving DecidableEq, Repr

/-- The state after an effect, above the part of the stack that is left alone. -/
def Effect.onto (below : Stack) : Effect → State
  | results values => .running (below ++ values)
  | verdict _ valid => .running (below ++ [.bool valid])
  | mismatch _ _ => .halted

namespace Machine

/-- The machine with one more curve, which takes the place of any other of that name. -/
def withCurve (machine : Machine) (curve : ObjectIdentifier) (domain : Domain) : Machine :=
  { machine with registry := machine.registry.insert curve domain }

/-! ### Opcodes -/

/-- An operand through a view that only values of the expected type have. -/
def operand {α : Type} (opcode : Opcode) (position : Nat) (expected : ValueKind)
    (view : Value → Option α) (v : Value) : Except ScriptError α :=
  match view v with
  | some a => .ok a
  | none => .error (.typeMismatch opcode position expected v.kind)

/-- Whether a signature of a message is valid for a public key. -/
def checkSignature (machine : Machine) (message : Bytes) (sig : Signature) (key : PublicKeyInfo) :
    Except ScriptError Bool :=
  if ¬key.IsEc then .error (.unsupportedKeyAlgorithm key.algorithm)
  else
    match machine.registry.get? key.curve with
    | none => .error (.unknownCurve key.curve)
    | some domain => do
      let point ← (CurvePoint.ofOctets domain key.point).mapError .crypto
      (Ecdsa.verify ⟨domain, machine.hash⟩ point message sig).mapError .crypto

end Machine

/-- As many operands as asked for, bottom first. -/
abbrev Operands (count : Nat) := { values : List Value // values.length = count }

/-- The rule of an opcode: how many operands it needs, and what it does with them. -/
structure Handler where
  needed : Nat
  apply : Machine → Operands needed → Except ScriptError Effect

open Machine in
/-- The rule of each opcode. -/
def Opcode.handler : Opcode → Handler
  | .add => ⟨2, fun _ ⟨[a, b], _⟩ => do
      let m ← operand .add 0 .int Value.asInt? a
      let n ← operand .add 1 .int Value.asInt? b
      return .results [.int (m + n)]⟩
  | .equal => ⟨2, fun _ ⟨[a, b], _⟩ => .ok (.results [.bool (a.Agrees b)])⟩
  | .equalVerify => ⟨2, fun _ ⟨[a, b], _⟩ =>
      .ok (if a.Agrees b then .results [] else .mismatch a b)⟩
  | .dup => ⟨1, fun _ ⟨[a], _⟩ => .ok (.results [a, a])⟩
  | .hash => ⟨1, fun machine ⟨[a], _⟩ => do
      let digest ← (machine.hash.digestAll a.pieces).mapError .crypto
      return .results [.bytes digest]⟩
  | .checkSig => ⟨3, fun machine ⟨[message, a, b], _⟩ => do
      let sig ← operand .checkSig 1 .signature Value.asSignature? a
      let key ← operand .checkSig 2 .publicKey Value.asPublicKey? b
      let valid ← machine.checkSignature message.octets sig key
      return .verdict sig valid⟩

theorem Opcode.needed_handler (op : Opcode) : op.handler.needed = op.arity := by cases op <;> rfl

namespace Machine

/-- Takes operands off the top of a stack, with the part of the stack that stays below them. -/
def pop (opcode : Opcode) (needed : Nat) (stack : Stack) :
    Except ScriptError (Stack × Operands needed) :=
  if _ : stack.length < needed then .error (.stackUnderflow opcode needed stack.length)
  else
    let height := stack.length - needed
    .ok (stack.take height, ⟨stack.drop height, by rw [List.length_drop]; omega⟩)

/-! ### Runs -/

/-- What a token does on a stack: the part of the stack that it leaves alone, and its effect above
that. -/
def perform (machine : Machine) (stack : Stack) : Token → Except ScriptError (Stack × Effect)
  | .push v => .ok (stack, .results [v])
  | .op opcode => do
    let (below, operands) ← pop opcode opcode.handler.needed stack
    let effect ← opcode.handler.apply machine operands
    return (below, effect)

/-- Reads the text of a token and performs it. -/
def execute (machine : Machine) (stack : Stack) (text : String) :
    Except ScriptError (Stack × Effect) := do
  machine.perform stack (← Token.parse text)

/-- The state after one more token.  A halted run stays halted, whatever the token. -/
def step (machine : Machine) : State → String → Except ScriptError State
  | .halted, _ => .ok .halted
  | .running stack, text => do
    let (below, effect) ← machine.execute stack text
    return effect.onto below

/-- The state after a list of tokens. -/
def runFrom (machine : Machine) (state : State) (tokens : List String) :
    Except ScriptError State :=
  tokens.foldlM machine.step state

/-- The stack that a script leaves. -/
def run (machine : Machine) (tokens : List String) : Except ScriptError Stack :=
  (machine.runFrom (.running []) tokens).map State.result

/-! ### Runs in parts -/

theorem runFrom_append (machine : Machine) (state : State) (first second : List String) :
    machine.runFrom state (first ++ second) =
      (machine.runFrom state first).bind fun s => machine.runFrom s second := by
  simp [runFrom, List.foldlM_append, bind]

@[simp] theorem runFrom_nil (machine : Machine) (state : State) :
    machine.runFrom state [] = .ok state := rfl

theorem runFrom_cons (machine : Machine) (state : State) (token : String) (rest : List String) :
    machine.runFrom state (token :: rest) =
      (machine.step state token).bind fun s => machine.runFrom s rest := by
  simp [runFrom, bind]

theorem runFrom_halted (machine : Machine) (tokens : List String) :
    machine.runFrom .halted tokens = .ok .halted := by
  induction tokens with
  | nil => rfl
  | cons token rest ih => rw [runFrom_cons]; exact ih

end Machine

end SigScript
