import SigScript.Binary

/-!
# Powers modulo a number

`powMod b e m` is `b ^ e` reduced modulo `m`, computed by squaring once for each bit of the exponent.
-/

namespace SigScript.Residue

/-- One step of square and multiply: the exponent so far is doubled and `bit` is added to it. -/
def powStep (b m acc : Nat) (bit : Bool) : Nat :=
  let square := acc * acc % m
  if bit then square * b % m else square

/-- `b ^ e` modulo `m`. -/
def powMod (b e m : Nat) : Nat := (Binary.bits e).foldl (powStep b m) (1 % m)

end SigScript.Residue
