import SigScript.CryptoError
import SigScript.Script.Opcode
import SigScript.Script.Value

/-!
# Failures of a script

`ScriptError` lists the ways in which a script can be broken off, and `ScriptError.message` gives the
text of each.  A signature that is not valid and two values that do not agree are no failures.
-/

namespace SigScript

/-- Why a script was broken off. -/
inductive ScriptError where
  /-- A token is neither a literal nor an opcode. -/
  | unknownOpcode (token : String)
  /-- An opcode needs more operands than the stack holds. -/
  | stackUnderflow (opcode : Opcode) (needed available : Nat)
  /-- An operand, counted from the bottom, has the wrong type. -/
  | typeMismatch (opcode : Opcode) (operand : Nat) (expected actual : ValueKind)
  /-- A public key names a curve that is not registered. -/
  | unknownCurve (curve : ObjectIdentifier)
  /-- A public key is not one of an elliptic curve. -/
  | unsupportedKeyAlgorithm (algorithm : ObjectIdentifier)
  /-- A cryptographic operation failed. -/
  | crypto (error : CryptoError)
  deriving DecidableEq, Repr

/-- The text shown for a failure. -/
def ScriptError.message : ScriptError → String
  | .unknownOpcode token => "unknown opcode: " ++ token
  | .stackUnderflow opcode needed available =>
    opcode.mnemonic ++ " needs " ++ Numeral.decimal needed ++ " operands but the stack holds " ++
      Numeral.decimal available
  | .typeMismatch opcode operand expected actual =>
    opcode.mnemonic ++ " expected operand " ++ Numeral.decimal operand ++ " to be " ++
      expected.name ++ " but got " ++ actual.name
  | .unknownCurve curve => "unknown curve " ++ curve.text
  | .unsupportedKeyAlgorithm algorithm => "unsupported key algorithm " ++ algorithm.text
  | .crypto error => error.message

end SigScript
