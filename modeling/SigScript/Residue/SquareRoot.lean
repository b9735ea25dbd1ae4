import SigScript.CryptoError
import SigScript.Residue.Power

/-!
# Square roots modulo a number

`quadraticCharacter` is Euler's criterion and `sqrt` the algorithm of Tonelli and Shanks.  With
`p - 1 = q * 2 ^ s`, `q` odd, the algorithm keeps a candidate `r` and an error `t` with
`r ^ 2 = n * t`, and lowers the order of `t` (a power of two) until it is 1.  The order of the error
bounds every loop, so the algorithm ends for composite moduli as well.
-/

namespace SigScript.Residue

/-- Euler's criterion: 0 for multiples of `p`, 1 when the power `(p - 1) / 2` of `n` is 1 modulo
`p`, and -1 for all other numbers. -/
def quadraticCharacter (n p : Nat) : Int :=
  if n % p = 0 then 0
  else if powMod (n % p) ((p - 1) / 2) p = 1 then 1
  else -1

/-- Euler's criterion, undefined modulo zero. -/
def quadraticCharacter? (n p : Nat) : Option Int :=
  if p = 0 then none else some (quadraticCharacter n p)

/-- How often 2 divides `n`; zero counts as odd. -/
def twos (n : Nat) : Nat := if _ : n = 0 ∨ n % 2 = 1 then 0 else twos (n / 2) + 1
termination_by n

/-- What is left of `n` when it is halved as often as 2 divides it. -/
def oddPart (n : Nat) : Nat := if _ : n = 0 ∨ n % 2 = 1 then n else oddPart (n / 2)
termination_by n

/-- The least number from `z` on and below `p` whose quadratic character is -1. -/
def nonResidueFrom? (p z : Nat) : Option Nat :=
  if z < p then
    if quadraticCharacter z p = -1 then some z else nonResidueFrom? p (z + 1)
  else none
termination_by p - z

/-- Squares `t` a number of times modulo `p`. -/
def squared (p t : Nat) : (times : Nat) → Nat
  | 0 => t
  | times + 1 => squared p (t * t % p) times

/-- The least `i` below `bound` for which `i` squarings take `t` to 1 modulo `p`. -/
def squaringsToOne? (p t : Nat) : (bound : Nat) → Option Nat
  | 0 => none
  | bound + 1 => if t = 1 then some 0 else (squaringsToOne? p (t * t % p) bound).map (· + 1)

theorem lt_of_squaringsToOne? {p t bound i : Nat} (h : squaringsToOne? p t bound = some i) :
    i < bound := by
  induction bound generalizing t i with
  | zero => simp [squaringsToOne?] at h
  | succ bound ih =>
    rw [squaringsToOne?] at h
    split at h
    · cases h; omega
    · obtain ⟨j, hj, rfl⟩ := Option.map_eq_some_iff.1 h
      have := ih hj
      omega

/-- Lowers the order of the error `t` below `2 ^ m` until it is 1, and returns the root.  Here `c`
generates the powers of the least non-residue whose order divides `2 ^ m`.  There is no root when
the order of `t` is not below `2 ^ m`. -/
def correctRoot? (p m c t r : Nat) : Option Nat :=
  if t = 1 then some r
  else
    match _h : squaringsToOne? p t m with
    | none => none
    | some i =>
      let b := squared p c (m - i - 1)
      let square := b * b % p
      correctRoot? p i square (t * square % p) (r * b % p)
termination_by m
decreasing_by exact lt_of_squaringsToOne? _h

/-- A square root of `n` modulo the odd number `p`.  For a prime modulus there is one exactly when
`n` is a square; for a composite one the search may fail on a square. -/
def sqrt (n p : Nat) : Except CryptoError Nat :=
  if p % 2 = 0 ∨ p < 3 then .error (.invalidModulus p)
  else
    let n := n % p
    if n = 0 then .ok 0
    else if quadraticCharacter n p ≠ 1 then .error (.nonResidue n p)
    else
      let s := twos (p - 1)
      let q := oddPart (p - 1)
      if s = 1 then .ok (powMod n ((p + 1) / 4) p)
      else
        match nonResidueFrom? p 2 with
        | none => .error (.invalidModulus p)
        | some z =>
          match correctRoot? p s (powMod z q p) (powMod n q p) (powMod n ((q + 1) / 2) p) with
          | some r => .ok r
          | none => .error (.nonResidue n p)

end SigScript.Residue
