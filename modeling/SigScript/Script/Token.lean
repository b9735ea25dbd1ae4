import SigScript.Script.Error
import SigScript.Text.Blank
import SigScript.Text.IntegerLiteral

/-!
# Tokens

A token is a literal, which pushes a value, or an opcode.  There are six forms of literals; they are
tried in order, and the first that fits gives the value.  Everything else has to be the mnemonic of an
opcode, also a text that starts like a literal and goes on wrongly.
-/

namespace SigScript

/-- A token of a script. -/
inductive Token where
  | push (v : Value)
  | op (opcode : Opcode)
  deriving DecidableEq, Repr

namespace Token

/-! ### Literals -/

/-- The text behind a mark. -/
def payload? (mark : String) (cs : List Char) : Option (List Char) := mark.toList.isPrefixOf? cs

/-- The octets of the base64 text behind a mark. -/
def octets? (mark : String) (cs : List Char) : Option Bytes := (payload? mark cs).bind Base64.decode?

/-- A decimal integer. -/
def decimal? (cs : List Char) : Option Value := (IntegerLiteral.integer? 10 cs).map .int

/-- A hexadecimal integer behind `0x`.  A sign follows the mark. -/
def hexadecimal? (cs : List Char) : Option Value :=
  ((payload? "0x" cs).bind (IntegerLiteral.integer? 16)).map .int

/-- A byte string in base64. -/
def bytes? (cs : List Char) : Option Value := (octets? Value.bytesMark cs).map .bytes

/-- A byte string given as the text that it encodes in UTF-8. -/
def utf8? (cs : List Char) : Option Value :=
  (payload? "bytes_utf8:" cs).map fun rest => .bytes (Bytes.ofText (String.ofList rest))

/-- A signature. -/
def signature? (cs : List Char) : Option Value := do
  let octets ← octets? Value.signatureMark cs
  let sig ← (Signature.codec.decode octets).toOption
  return .signature sig

/-- A public key. -/
def publicKey? (cs : List Char) : Option Value := do
  let octets ← octets? Value.publicKeyMark cs
  let key ← (PublicKeyInfo.codec.decode octets).toOption
  return .publicKey key

/-- The forms of literals, in the order in which they are tried. -/
def literalForms : List (List Char → Option Value) :=
  [decimal?, hexadecimal?, bytes?, utf8?, signature?, publicKey?]

/-- The value of a literal. -/
def literal? (text : String) : Option Value := literalForms.findSome? fun form => form text.toList

/-! ### Tokens -/

/-- The token of a text. -/
def parse (text : String) : Except ScriptError Token :=
  match literal? text with
  | some v => .ok (.push v)
  | none =>
    match Opcode.ofMnemonic? text with
    | some opcode => .ok (.op opcode)
    | none => .error (.unknownOpcode text)

end Token

end SigScript
