/-!
# Opcodes

The operations of scripts, with their mnemonics and the number of operands that each is declared to
take from the top of the stack.
-/

namespace SigScript

/-- An operation on the stack.  Operands are listed bottom first. -/
inductive Opcode where
  /-- Replaces two numbers by their sum. -/
  | add
  /-- Replaces two values by the answer whether they agree. -/
  | equal
  /-- Removes two values, and halts the script unless they agree. -/
  | equalVerify
  /-- Doubles a value. -/
  | dup
  /-- Replaces a value by the digest of its octets. -/
  | hash
  /-- Replaces a message, a signature and a public key by the verdict on the signature. -/
  | checkSig
  deriving DecidableEq, Repr

namespace Opcode

/-- All opcodes. -/
def all : List Opcode := [add, equal, equalVerify, dup, hash, checkSig]

/-- The word for an opcode in scripts. -/
def mnemonic : Opcode → String
  | add => "ADD"
  | equal => "EQUAL"
  | equalVerify => "OP_EqualVerify"
  | dup => "OP_DUP"
  | hash => "OP_HASH"
  | checkSig => "OP_CheckSig"

/-- The declared number of operands. -/
def arity : Opcode → Nat
  | add | equal | equalVerify => 2
  | dup | hash => 1
  | checkSig => 3

/-- The opcode of a word. -/
def ofMnemonic? (word : String) : Option Opcode := all.find? fun op => op.mnemonic = word

/-! ### Words and opcodes -/

theorem ofMnemonic?_eq_some_iff {word : String} {op : Opcode} :
    ofMnemonic? word = some op ↔ op.mnemonic = word := by
  constructor
  · intro h
    simpa using List.find?_some h
  · rintro rfl
    cases op <;> decide

end Opcode

end SigScript
