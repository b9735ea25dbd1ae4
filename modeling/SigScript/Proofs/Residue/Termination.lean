import Mathlib
import SigScript.Proofs.Residue.Search

/-!
# The search for a root ends

The search step by step comes to the answer of `sqrt` modulo every odd number (`sqrt_always_ends`).
The modulus need not be prime: a number of character -1 exists in any case (`exists_nonResidueFrom?_two`),
and the squarings of a round stop before the order of the round is reached, so that every round
lowers the order (`stageAt_of_round`).
-/

namespace SigScript.Residue

/-! ### The power of two in `p - 1` -/

theorem twos_eq_padicValNat (n : Nat) : twos n = padicValNat 2 n := by
  fun_induction twos n with
  | case1 n h =>
    obtain rfl | hodd := h
    · rw [padicValNat_zero_right]
    · exact (padicValNat.eq_zero_of_not_dvd (by omega)).symm
  | case2 n h ih =>
    have hdvd : 2 ∣ n := by omega
    have hpos : 1 ≤ padicValNat 2 n := one_le_padicValNat_of_dvd (by omega) hdvd
    rw [ih, padicValNat.div hdvd]
    omega

section Search

variable {n p : Nat}

theorem one_le_twos (hodd : p % 2 = 1) (hp : 3 ≤ p) : 1 ≤ twos (p - 1) := by
  rw [twos, dif_neg (by omega)]
  omega

/-! ### Numbers of character -1 -/

/-- A prime factor of a composite number has the character -1: no power of it is 1. -/
theorem quadraticCharacter_minFac (hp : 3 ≤ p) (hprime : ¬p.Prime) :
    quadraticCharacter p.minFac p = -1 := by
  have hne : p ≠ 1 := by omega
  have hlt : p.minFac < p := (Nat.not_prime_iff_minFac_lt (by omega)).1 hprime
  have hpos : 0 < p.minFac := p.minFac_pos
  have hfactor := Nat.minFac_prime hne
  have hpow : powMod (p.minFac % p) ((p - 1) / 2) p ≠ 1 := by
    intro h
    rw [Nat.mod_eq_of_lt hlt, powMod_eq] at h
    have hdvd : p.minFac ∣ p.minFac ^ ((p - 1) / 2) % p :=
      (Nat.dvd_mod_iff p.minFac_dvd).2 (dvd_pow_self _ (by omega))
    rw [h] at hdvd
    exact hfactor.one_lt.ne' (Nat.dvd_one.1 hdvd)
  rw [quadraticCharacter, if_neg (by rw [Nat.mod_eq_of_lt hlt]; omega), if_neg hpow]

/-- The search for a number of character -1 succeeds modulo every odd number. -/
theorem exists_nonResidueFrom?_two (hodd : p % 2 = 1) (hp : 3 ≤ p) :
    ∃ z, nonResidueFrom? p 2 = some z := by
  by_cases hprime : p.Prime
  · have : Fact p.Prime := ⟨hprime⟩
    exact exists_nonResidue hodd
  · have htwo : 2 ≤ p.minFac := (Nat.minFac_prime (by omega)).two_le
    have hlt : p.minFac < p := (Nat.not_prime_iff_minFac_lt (by omega)).1 hprime
    exact exists_nonResidueFrom? htwo hlt (quadraticCharacter_minFac hp hprime)

theorem sqrt_ne_invalidModulus (hodd : p % 2 = 1) (hp : 3 ≤ p) (n : Nat) :
    sqrt n p ≠ .error (.invalidModulus p) := by
  obtain ⟨z, hz⟩ := exists_nonResidueFrom?_two hodd hp
  rw [sqrt, if_neg (by omega)]
  simp only [hz]
  split_ifs
  · rintro ⟨⟩
  · rintro ⟨⟩
  · rintro ⟨⟩
  · split <;> rintro ⟨⟩

/-! ### From the start on -/

/-- The search has its answer at once, or it begins with the search for a number of character -1. -/
theorem start_cases (n p : Nat) :
    Stage.start n p = .finished (sqrt n p) ∨
      Stage.start n p = .seeking 2 ∧ (Stage.seeking 2).answer (n % p) p = sqrt n p := by
  unfold Stage.start sqrt
  split
  · exact .inl rfl
  · simp only
    split
    · exact .inl rfl
    · split
      · exact .inl rfl
      · split
        · exact .inl rfl
        · refine .inr ⟨rfl, ?_⟩
          simp only [Stage.answer]
          cases nonResidueFrom? p 2 with
          | none => rfl
          | some z => rfl

theorem bounded_start (n : Nat) (hp : 3 ≤ p) : (Stage.start n p).Bounded p := by
  obtain hstart | ⟨hstart, -⟩ := start_cases n p
  · rw [hstart]
    trivial
  · rw [hstart]
    exact hp

theorem answer_start (n p : Nat) : (Stage.start n p).answer (n % p) p = sqrt n p := by
  obtain hstart | ⟨hstart, hanswer⟩ := start_cases n p
  · rw [hstart, Stage.answer]
  · rw [hstart, hanswer]

theorem rank_start_le (n p : Nat) :
    (Stage.start n p).rank p ≤ p + (twos (p - 1) + 1) ^ 2 := by
  obtain hstart | ⟨hstart, -⟩ := start_cases n p
  · rw [hstart]
    exact Nat.zero_le _
  · rw [hstart, Stage.rank]
    omega

theorem roundsLeft_start_le (n p : Nat) : (Stage.start n p).roundsLeft p ≤ twos (p - 1) := by
  obtain hstart | ⟨hstart, -⟩ := start_cases n p
  · rw [hstart]
    exact Nat.zero_le _
  · rw [hstart]
    exact le_rfl

/-- What is known of the stage after a number of steps. -/
structure Stage.Reached (n p steps : Nat) (stage : Stage) : Prop where
  stageAt_eq : stageAt n p steps = some stage
  bounded : stage.Bounded p
  rank_le : stage.rank p ≤ (Stage.start n p).rank p - steps
  roundsLeft_le : stage.roundsLeft p + rounds n p steps ≤ (Stage.start n p).roundsLeft p
  answer_eq : stage.answer (n % p) p = sqrt n p

theorem stageAt_succ {steps : Nat} {stage : Stage} (h : stageAt n p steps = some stage) :
    stageAt n p (steps + 1) = stage.next? (n % p) p := by
  rw [stageAt, h, Option.bind_some]

theorem rounds_succ {steps : Nat} {stage : Stage} (h : stageAt n p steps = some stage) :
    rounds n p (steps + 1) = rounds n p steps + stage.beginsRound.toNat := by
  rw [rounds, List.range_succ, List.countP_append, ← rounds]
  cases hbegins : stage.beginsRound <;> simp [h, hbegins]

/-- Every number of steps can be made. -/
theorem exists_reached (hodd : p % 2 = 1) (hp : 3 ≤ p) (n steps : Nat) :
    ∃ stage, Stage.Reached n p steps stage := by
  induction steps with
  | zero => exact ⟨_, rfl, bounded_start n hp, le_rfl, le_rfl, answer_start n p⟩
  | succ steps ih =>
    obtain ⟨stage, hstage⟩ := ih
    obtain ⟨next, hnext, hfollows⟩ :=
      Stage.exists_follows (n := n % p) (one_le_twos hodd hp) hstage.bounded
    have hrank := hstage.rank_le
    have hrank' := hfollows.rank_le
    have hleft := hstage.roundsLeft_le
    have hleft' := hfollows.roundsLeft_le
    refine ⟨next, ?_, hfollows.bounded, by omega, ?_, hfollows.answer_eq.trans hstage.answer_eq⟩
    · rw [stageAt_succ hstage.stageAt_eq, hnext]
    · rw [rounds_succ hstage.stageAt_eq]
      omega

/-! ### A round -/

section Round

variable {k i power d : Nat} {a : Candidate}

theorem stageAt_of_power_eq_one (h : stageAt n p k = some (.squaring a i power)) (hi : i < a.m)
    (hpower : power = 1) :
    stageAt n p (k + 1) = some (.correcting (a.corrected p i (a.m - i - 1))) := by
  rw [stageAt_succ h, Stage.next?, if_pos hpower, Candidate.times?,
    if_pos (Nat.succ_le_of_lt hi), Option.map_some]

/-- The squarings that are left end a round: the last one is a failure, or 1 is met before it. -/
theorem stageAt_of_squaring (h : stageAt n p k = some (.squaring a i power))
    (hd : a.m = i + d + 1) :
    stageAt n p (k + d + 1) = some (.finished (.error (.nonResidue (n % p) p))) ∨
      ∃ j ≤ d, stageAt n p (k + j + 1) =
        some (.correcting (a.corrected p (i + j) (a.m - (i + j) - 1))) := by
  -- The induction is on the squarings that are left before the last one.
  induction d generalizing k i power with
  | zero =>
    by_cases hpower : power = 1
    · exact .inr ⟨0, le_rfl, stageAt_of_power_eq_one h (by omega) hpower⟩
    · left
      rw [stageAt_succ h, Stage.next?, if_neg hpower, if_pos (by omega)]
  | succ d ih =>
    by_cases hpower : power = 1
    · exact .inr ⟨0, Nat.zero_le _, stageAt_of_power_eq_one h (by omega) hpower⟩
    have hnext : stageAt n p (k + 1) = some (.squaring a (i + 1) (power * power % p)) := by
      rw [stageAt_succ h, Stage.next?, if_neg hpower, if_neg (by omega)]
    obtain hfail | ⟨j, hj, hcorrect⟩ := ih hnext (by omega)
    · left
      rw [← hfail]
      congr 1
      omega
    · refine .inr ⟨j + 1, by omega, ?_⟩
      rw [← Nat.add_assoc i j 1, Nat.add_right_comm i j 1, ← hcorrect]
      congr 1
      omega

/-- A round makes `m` squarings and fails, or it makes fewer, at least one, and corrects the
candidate. -/
theorem stageAt_of_round (h : stageAt n p k = some (.correcting a)) (hm : 1 ≤ a.m)
    (hne : a.t ≠ 1) :
    stageAt n p (k + a.m + 1) = some (.finished (.error (.nonResidue (n % p) p))) ∨
      ∃ i, 1 ≤ i ∧ i < a.m ∧ stageAt n p (k + i + 2) =
        some (.correcting (a.corrected p i (a.m - i - 1))) := by
  have hzero : stageAt n p (k + 1) = some (.squaring a 0 a.t) := by
    rw [stageAt_succ h, Stage.next?, if_neg hne]
  by_cases hone : a.m = 1
  · left
    rw [hone, stageAt_succ hzero, Stage.next?, if_neg hne, if_pos hone.symm]
  have hfirst : stageAt n p (k + 2) = some (.squaring a 1 (a.t * a.t % p)) := by
    rw [stageAt_succ hzero, Stage.next?, if_neg hne, if_neg (by omega)]
  obtain ⟨d, hd⟩ : ∃ d, a.m = 1 + d + 1 := ⟨a.m - 2, by omega⟩
  obtain hfail | ⟨j, hj, hcorrect⟩ := stageAt_of_squaring hfirst hd
  · left
    rw [← hfail]
    congr 1
    omega
  · refine .inr ⟨1 + j, by omega, by omega, ?_⟩
    rw [← hcorrect]
    congr 1
    omega

end Round

end Search

/-- The search for a root modulo an odd number comes to the answer of `sqrt`, and no subtraction of it
is negative.  Let `2 ^ s` be the largest power of two that divides `p - 1`.  The search for a number
of character -1 stays below `p` and succeeds.  A round of order `m` ends after `m` squarings, when
there is no root, or after `i` squarings with `1 ≤ i < m`, and then the next round has the order `i`.
There are at most `s` rounds. -/
theorem sqrt_always_ends (n : Nat) {p : Nat} (hodd : p % 2 = 1) (hp : 3 ≤ p) :
    (∃ steps ≤ p + (padicValNat 2 (p - 1) + 1) ^ 2,
      stageAt n p steps = some (.finished (sqrt n p))) ∧
    (∀ steps, ∃ stage, stageAt n p steps = some stage) ∧
    (∀ steps z, stageAt n p steps = some (.seeking z) → z < p) ∧
    sqrt n p ≠ .error (.invalidModulus p) ∧
    (∀ steps a, stageAt n p steps = some (.correcting a) → a.t ≠ 1 →
      stageAt n p (steps + a.m + 1) = some (.finished (.error (.nonResidue (n % p) p))) ∨
        ∃ i, 1 ≤ i ∧ i < a.m ∧ stageAt n p (steps + i + 2) =
          some (.correcting (a.corrected p i (a.m - i - 1)))) ∧
    ∀ steps, rounds n p steps < padicValNat 2 (p - 1) + 1 := by
  rw [← twos_eq_padicValNat]
  have hreached := exists_reached hodd hp n
  have hbounded : ∀ steps stage, stageAt n p steps = some stage → stage.Bounded p := by
    intro steps stage h
    obtain ⟨stage', hstage'⟩ := hreached steps
    obtain rfl := Option.some.inj (h.symm.trans hstage'.stageAt_eq)
    exact hstage'.bounded
  refine ⟨⟨(Stage.start n p).rank p, rank_start_le n p, ?_⟩, ?_, ?_, ?_, ?_, ?_⟩
  · obtain ⟨stage, hstage⟩ := hreached ((Stage.start n p).rank p)
    have hrank := hstage.rank_le
    rw [Nat.sub_self, Nat.le_zero] at hrank
    rw [hstage.stageAt_eq, Stage.eq_finished_of_rank (n := n % p) hstage.bounded hrank,
      hstage.answer_eq]
  · intro steps
    obtain ⟨stage, hstage⟩ := hreached steps
    exact ⟨stage, hstage.stageAt_eq⟩
  · intro steps z h
    exact hbounded steps _ h
  · exact sqrt_ne_invalidModulus hodd hp n
  · intro steps a h hne
    exact stageAt_of_round h (hbounded steps _ h).1 hne
  · intro steps
    obtain ⟨stage, hstage⟩ := hreached steps
    have hleft := hstage.roundsLeft_le
    have hstart := roundsLeft_start_le n p
    omega

/-- Modulo 65 the number 8 passes Euler's criterion, but it has no root. -/
theorem sqrt_always_ends_sixtyFive :
    (∃ steps ≤ 65 + (padicValNat 2 64 + 1) ^ 2,
      stageAt 8 65 steps = some (.finished (.error (.nonResidue 8 65)))) ∧
    rounds 8 65 10 = 2 ∧ 2 < padicValNat 2 64 + 1 := by
  obtain ⟨hends, -, -, -, -, hrounds⟩ := sqrt_always_ends 8 (p := 65) (by decide) (by decide)
  have hsqrt : sqrt 8 65 = .error (.nonResidue 8 65) := by decide +kernel
  have htwo : rounds 8 65 10 = 2 := by decide +kernel
  rw [hsqrt] at hends
  exact ⟨hends, htwo, htwo ▸ hrounds 10⟩

end SigScript.Residue
