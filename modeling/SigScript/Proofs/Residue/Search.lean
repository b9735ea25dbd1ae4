import Mathlib
import SigScript.Proofs.Residue.Completeness

/-!
# The search for a root, step by step

`sqrt` limits each of its loops.  Here the search makes one step at a time, in loops that nothing
limits but their own tests (`Stage.next?`), and a step is not possible when it would subtract below
zero.  Every stage within the bounds of the loops has a next one, which is within the bounds too, is
nearer to the end, and leads to the same answer of `sqrt` (`Stage.exists_follows`).
-/

namespace SigScript.Residue

/-! ### The search step by step -/

/-- What the corrections work on: a candidate `r` whose error `t` should have an order below `2 ^ m`,
and a generator `c` of the powers whose order divides `2 ^ m`. -/
structure Candidate where
  m : Nat
  c : Nat
  t : Nat
  r : Nat

namespace Candidate

/-- The first candidate for a root of `n`, given a number `z` of character -1. -/
def first (n p z : Nat) : Candidate :=
  let q := oddPart (p - 1)
  ⟨twos (p - 1), powMod z q p, powMod n q p, powMod n ((q + 1) / 2) p⟩

/-- The candidate after a correction by the generator, squared a number of times. -/
def corrected (p : Nat) (a : Candidate) (i times : Nat) : Candidate :=
  let b := squared p a.c times
  let square := b * b % p
  ⟨i, square, a.t * square % p, a.r * b % p⟩

/-- How often the generator is squared for an error that `i` squarings take to 1.  That must not be
negative. -/
def times? (a : Candidate) (i : Nat) : Option Nat :=
  if i + 1 ≤ a.m then some (a.m - i - 1) else none

end Candidate

/-- Where the search for a root stands. -/
inductive Stage where
  /-- The character of `z` is looked at next. -/
  | seeking (z : Nat)
  /-- A round of corrections begins unless the error is 1. -/
  | correcting (a : Candidate)
  /-- In a round, `i` squarings have taken the error to `power`. -/
  | squaring (a : Candidate) (i power : Nat)
  | finished (answer : Except CryptoError Nat)

namespace Stage

/-- The stage after one more step of the search for a root of the reduced number `n`.  There is none
when a subtraction would be negative. -/
def next? (n p : Nat) : Stage → Option Stage
  | seeking z =>
    if quadraticCharacter z p = -1 then some (correcting (.first n p z))
    else if p ≤ z + 1 then some (finished (.error (.invalidModulus p)))
    else some (seeking (z + 1))
  | correcting a => some (if a.t = 1 then finished (.ok a.r) else squaring a 0 a.t)
  | squaring a i power =>
    if power = 1 then (a.times? i).map fun times => correcting (a.corrected p i times)
    else if i + 1 = a.m then some (finished (.error (.nonResidue n p)))
    else some (squaring a (i + 1) (power * power % p))
  | finished answer => some (finished answer)

/-- The stage at which the loops begin, or the answer of a search that needs none. -/
def start (n p : Nat) : Stage :=
  if p % 2 = 0 ∨ p < 3 then finished (.error (.invalidModulus p))
  else if n % p = 0 then finished (.ok 0)
  else if quadraticCharacter (n % p) p ≠ 1 then finished (.error (.nonResidue (n % p) p))
  else if twos (p - 1) = 1 then finished (.ok (powMod (n % p) ((p + 1) / 4) p))
  else seeking 2

/-- Whether a round of corrections begins at a stage. -/
def beginsRound : Stage → Bool
  | correcting a => a.t ≠ 1
  | seeking _ | squaring .. | finished _ => false

end Stage

/-- The stage of the search after a number of steps. -/
def stageAt (n p : Nat) : (steps : Nat) → Option Stage
  | 0 => some (.start n p)
  | steps + 1 => (stageAt n p steps).bind (Stage.next? (n % p) p)

/-- The number of rounds of corrections that begin in a number of steps. -/
def rounds (n p steps : Nat) : Nat :=
  (List.range steps).countP fun k => (stageAt n p k).any Stage.beginsRound

/-! ### What a step keeps -/

theorem correctRoot?_of_ne_one {p m c t r : Nat} (h : t ≠ 1) :
    correctRoot? p m c t r = (squaringsToOne? p t m).bind fun i =>
      let b := squared p c (m - i - 1)
      correctRoot? p i (b * b % p) (t * (b * b % p) % p) (r * b % p) := by
  rw [correctRoot?, if_neg h]
  split
  · rename_i hnone
    rw [hnone, Option.bind_none]
  · rename_i i hi
    rw [hi, Option.bind_some]

namespace Stage

/-- The bounds on the loops. -/
def Bounded (p : Nat) : Stage → Prop
  | seeking z => z < p
  | correcting a => 1 ≤ a.m ∧ a.m ≤ twos (p - 1)
  | squaring a i power => i < a.m ∧ a.m ≤ twos (p - 1) ∧ (power = 1 → 1 ≤ i)
  | finished _ => True

/-- A bound on the steps that are left. -/
def rank (p : Nat) : Stage → Nat
  | seeking z => (twos (p - 1) + 1) ^ 2 + (p - z)
  | correcting a => (a.m + 1) ^ 2
  | squaring a i _ => a.m ^ 2 + (a.m - i)
  | finished _ => 0

/-- A bound on the rounds that have not begun. -/
def roundsLeft (p : Nat) : Stage → Nat
  | seeking _ => twos (p - 1)
  | correcting a => a.m
  | squaring a _ _ => a.m - 1
  | finished _ => 0

/-- The answer of `sqrt` from a candidate on. -/
def answerOf (n p : Nat) (a : Candidate) : Except CryptoError Nat :=
  match correctRoot? p a.m a.c a.t a.r with
  | some r => .ok r
  | none => .error (.nonResidue n p)

/-- The answer of `sqrt` from a stage on. -/
def answer (n p : Nat) : Stage → Except CryptoError Nat
  | seeking z =>
    match nonResidueFrom? p z with
    | some z => answerOf n p (.first n p z)
    | none => .error (.invalidModulus p)
  | correcting a => answerOf n p a
  | squaring a i power =>
    match squaringsToOne? p power (a.m - i) with
    | some j => answerOf n p (a.corrected p (i + j) (a.m - (i + j) - 1))
    | none => .error (.nonResidue n p)
  | finished answer => answer

/-- What holds of one step: it stays within the bounds, uses up some of the rank and of the rounds,
and leaves the answer. -/
structure Follows (n p : Nat) (stage next : Stage) : Prop where
  bounded : next.Bounded p
  rank_le : next.rank p ≤ stage.rank p - 1
  roundsLeft_le : next.roundsLeft p + stage.beginsRound.toNat ≤ stage.roundsLeft p
  answer_eq : next.answer n p = stage.answer n p

variable {n p : Nat}

theorem exists_follows_seeking {z : Nat} (hp : 1 ≤ twos (p - 1)) (h : (seeking z).Bounded p) :
    ∃ next, next? n p (seeking z) = some next ∧ Follows n p (seeking z) next := by
  have hz : z < p := h
  rw [next?]
  split
  · rename_i hchar
    refine ⟨_, rfl, ⟨hp, le_rfl⟩, ?_, le_rfl, ?_⟩
    · simp only [rank, Candidate.first]
      omega
    · rw [answer, answer, nonResidueFrom?, if_pos hz, if_pos hchar]
  · rename_i hchar
    split
    · rename_i hlast
      refine ⟨_, rfl, trivial, Nat.zero_le _, Nat.zero_le _, ?_⟩
      rw [answer, answer, nonResidueFrom?, if_pos hz, if_neg hchar, nonResidueFrom?,
        if_neg (by omega)]
    · refine ⟨_, rfl, by simp only [Bounded]; omega, ?_, le_rfl, ?_⟩
      · simp only [rank]
        omega
      · rw [answer, answer, nonResidueFrom?.eq_def p z, if_pos hz, if_neg hchar]

theorem exists_follows_correcting {a : Candidate} (h : (correcting a).Bounded p) :
    ∃ next, next? n p (correcting a) = some next ∧ Follows n p (correcting a) next := by
  obtain ⟨hpos, hle⟩ := h
  refine ⟨_, rfl, ?_⟩
  split
  · rename_i hone
    refine ⟨trivial, Nat.zero_le _, ?_, ?_⟩
    · simp [roundsLeft, beginsRound, hone]
    · rw [answer, answer, answerOf, correctRoot?, if_pos hone]
  · rename_i hone
    refine ⟨⟨hpos, hle, fun hpower => absurd hpower hone⟩, ?_, ?_, ?_⟩
    · simp only [rank, Nat.sub_zero]
      have hsq : (a.m + 1) ^ 2 = a.m ^ 2 + 2 * a.m + 1 := by ring
      omega
    · simp [roundsLeft, beginsRound, hone]
      omega
    · simp only [answer, answerOf, Nat.sub_zero, Nat.zero_add, correctRoot?_of_ne_one hone]
      cases squaringsToOne? p a.t a.m with
      | none => rfl
      | some i => rfl

theorem exists_follows_squaring {a : Candidate} {i power : Nat}
    (h : (squaring a i power).Bounded p) :
    ∃ next, next? n p (squaring a i power) = some next ∧
      Follows n p (squaring a i power) next := by
  obtain ⟨hlt, hle, hone⟩ := h
  obtain ⟨d, hd⟩ : ∃ d, a.m - i = d + 1 := Nat.exists_eq_succ_of_ne_zero (by omega)
  rw [next?]
  split
  · rename_i hpower
    have hi := hone hpower
    rw [Candidate.times?, if_pos (by omega)]
    refine ⟨_, rfl, ⟨hi, by simp only [Candidate.corrected]; omega⟩, ?_, ?_, ?_⟩
    · simp only [rank, Candidate.corrected]
      have hsq : (i + 1) ^ 2 ≤ a.m ^ 2 := Nat.pow_le_pow_left hlt 2
      omega
    · simp only [roundsLeft, beginsRound, Candidate.corrected, Bool.toNat_false]
      omega
    · simp only [answer, hd, squaringsToOne?, if_pos hpower, Nat.add_zero]
  · rename_i hpower
    split
    · rename_i hlast
      have hd0 : d = 0 := by omega
      refine ⟨_, rfl, trivial, Nat.zero_le _, Nat.zero_le _, ?_⟩
      simp only [answer, hd, hd0, squaringsToOne?, if_neg hpower, Option.map_none]
    · refine ⟨_, rfl, ⟨by omega, hle, fun _ => by omega⟩, ?_, le_rfl, ?_⟩
      · simp only [rank]
        omega
      · have hd' : a.m - (i + 1) = d := by omega
        simp only [answer, hd, hd', squaringsToOne?, if_neg hpower]
        cases squaringsToOne? p (power * power % p) d with
        | none => rfl
        | some j => simp only [Option.map_some, Nat.add_assoc, Nat.add_comm 1 j]

theorem exists_follows {stage : Stage} (hp : 1 ≤ twos (p - 1)) (h : stage.Bounded p) :
    ∃ next, stage.next? n p = some next ∧ Follows n p stage next := by
  cases stage with
  | seeking z => exact exists_follows_seeking hp h
  | correcting a => exact exists_follows_correcting h
  | squaring a i power => exact exists_follows_squaring h
  | finished answer => exact ⟨_, rfl, trivial, le_rfl, le_rfl, rfl⟩

/-- Only a search that has an answer has no steps left. -/
theorem eq_finished_of_rank {stage : Stage} (h : stage.Bounded p) (hrank : stage.rank p = 0) :
    stage = finished (stage.answer n p) := by
  cases stage with
  | seeking z => simp [rank] at hrank
  | correcting a => simp [rank] at hrank
  | squaring a i power =>
    obtain ⟨hlt, -, -⟩ := h
    simp only [rank] at hrank
    omega
  | finished answer => rfl

end Stage

end SigScript.Residue
