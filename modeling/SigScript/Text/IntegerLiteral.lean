import SigScript.Text.Numeral

/-!
# Integer literals

An integer literal is a numeral with an optional sign in front.  Single underscores may stand between
its digits and do not count.
-/

namespace SigScript.IntegerLiteral

/-- The digits of a numeral in which every underscore stands between two digits. -/
def digits? (base : Nat) : List Char → Option (List Nat)
  | [] => none
  | [c] => (Numeral.digitValue? base c).map ([·])
  | c :: '_' :: rest => do
    let d ← Numeral.digitValue? base c
    let ds ← digits? base rest
    return d :: ds
  | c :: rest => do
    let d ← Numeral.digitValue? base c
    let ds ← digits? base rest
    return d :: ds

/-- The natural number of a numeral. -/
def natural? (base : Nat) (cs : List Char) : Option Nat :=
  (digits? base cs).map (Numeral.value base)

/-- The integer of a literal. -/
def integer? (base : Nat) : List Char → Option Int
  | '-' :: cs => (natural? base cs).map fun n : Nat => -(n : Int)
  | '+' :: cs => (natural? base cs).map Int.ofNat
  | cs => (natural? base cs).map Int.ofNat

end SigScript.IntegerLiteral
