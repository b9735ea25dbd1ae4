import SigScript.Ecdsa.Signature
import SigScript.PublicKeyInfo
import SigScript.Text.Base64

/-!
# Values of a script

A script works on a stack of values.  A value has a form as octets (`pieces`, joined in `octets`),
which is what gets hashed and signed, and a text, which is the literal that pushes it.  Booleans come
from opcodes only; they have no literal, and count as the integers 0 and 1 where values are compared.
-/

namespace SigScript

/-- A value on the stack. -/
inductive Value where
  | int (z : Int)
  | bool (b : Bool)
  | bytes (octets : Bytes)
  | signature (sig : Signature)
  | publicKey (key : PublicKeyInfo)
  deriving DecidableEq, Repr

/-- The type of a value. -/
inductive ValueKind where
  | int
  | bool
  | bytes
  | signature
  | publicKey
  deriving DecidableEq, Repr

/-- The name of a type in messages. -/
def ValueKind.name : ValueKind → String
  | .int => "Int"
  | .bool => "Bool"
  | .bytes => "Bytes"
  | .signature => "Signature"
  | .publicKey => "PublicKey"

namespace Value

/-- The type of a value. -/
def kind : Value → ValueKind
  | int _ => .int
  | bool _ => .bool
  | bytes _ => .bytes
  | signature _ => .signature
  | publicKey _ => .publicKey

/-! ### Views -/

/-- The integer of a value; booleans count as 0 and 1. -/
def asInt? : Value → Option Int
  | int z => some z
  | bool b => some b.toInt
  | _ => none

/-- The signature of a value. -/
def asSignature? : Value → Option Signature
  | signature sig => some sig
  | _ => none

/-- The public key of a value. -/
def asPublicKey? : Value → Option PublicKeyInfo
  | publicKey key => some key
  | _ => none

/-- The comparison of two values.  Octets, signatures and public keys are compared with their own
kind, everything else as integers; a value that is no integer is then equal to nothing. -/
def agree : Value → Value → Bool
  | bytes a, bytes b => a = b
  | signature a, signature b => a = b
  | publicKey a, publicKey b => a = b
  | v, w =>
    match v.asInt?, w.asInt? with
    | some m, some n => m = n
    | _, _ => false

/-- Whether two values count as equal. -/
def Agrees (v w : Value) : Prop := v.agree w

instance (v w : Value) : Decidable (v.Agrees w) := inferInstanceAs (Decidable (_ = true))

/-! ### Octets -/

/-- The octets of a value, in the pieces in which they are written. -/
def pieces : Value → List Bytes
  | int z => [Bytes.ofInt z]
  | bool b => [[if b then 1 else 0]]
  | bytes octets => [octets]
  | signature sig => Signature.codec.pieces sig
  | publicKey key => PublicKeyInfo.codec.pieces key

/-- The octets of a value. -/
def octets (v : Value) : Bytes := v.pieces.flatten

theorem octets_publicKey (key : PublicKeyInfo) :
    (publicKey key).octets = PublicKeyInfo.codec.encode key := rfl

/-! ### Text -/

/-- The mark of a byte string in base64. -/
def bytesMark : String := "base64:"

/-- The mark of a signature. -/
def signatureMark : String := "sig:"

/-- The mark of a public key. -/
def publicKeyMark : String := "pubkey:"

/-- A mark with octets in base64 behind it. -/
def marked (mark : String) (octets : Bytes) : String := mark ++ String.ofList (Base64.encode octets)

/-- The literal of a value, or the word for a boolean. -/
def text : Value → String
  | int z => Numeral.decimalInt z
  | bool b => if b then "true" else "false"
  | bytes octets => marked bytesMark octets
  | signature sig => marked signatureMark (Signature.codec.encode sig)
  | publicKey key => marked publicKeyMark (PublicKeyInfo.codec.encode key)

end Value

/-- A stack of values, bottom first. -/
abbrev Stack := List Value

/-- The texts of the values in brackets, bottom first. -/
def Stack.text (stack : Stack) : String := "[" ++ ", ".intercalate (stack.map Value.text) ++ "]"

end SigScript
