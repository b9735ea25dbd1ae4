import SigScript.Der.Codec

/-!
# Signatures

A signature is a pair of integers.  Every pair can be written and read; pairs that no key could have
made are found out when they are verified.
-/

namespace SigScript

/-- A signature `(r, s)`. -/
structure Signature where
  r : Int
  s : Int
  deriving DecidableEq, Repr

namespace Signature

/-- A sequence of two integers. -/
def codec : Der.Codec Signature :=
  (Der.pair Der.integer Der.integer).map (fun v => ⟨v.1, v.2⟩) fun sig => (sig.r, sig.s)

/-- The two integers in lower-case hexadecimal. -/
def text (sig : Signature) : String :=
  "(" ++ Numeral.hexInt sig.r ++ ", " ++ Numeral.hexInt sig.s ++ ")"

end Signature

end SigScript
