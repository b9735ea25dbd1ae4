import Mathlib
import SigScript.Curve.Domain
import SigScript.Proofs.Failure

/-!
# What the creation of a domain checks

A domain is accepted when some call of `Domain.create` answers with it.  That is a property of its
own parameters (`accepted_iff`): nothing is asked of the order and the cofactor, and the modulus
need not be prime.
-/

namespace SigScript.Domain

/-- The domain is one that `Domain.create` answers with. -/
def Accepted (d : Domain) : Prop :=
  ∃ name p a b generator order cofactor, create name p a b generator order cofactor = .ok d

theorem checkGenerator_eq_ok_iff {E : Curve} {G : Coordinates} :
    checkGenerator E G = .ok () ↔ E.HasPoint G := by
  cases G with
  | infinity => simp [checkGenerator, Curve.HasPoint]
  | affine x y =>
    by_cases hx : x < E.modulus <;> by_cases hy : y < E.modulus <;> by_cases h : E.Satisfies x y <;>
      simp [checkGenerator, Curve.checkReduced, Curve.HasPoint, Curve.Contains, hx, hy, h]

/-- A domain is accepted when its modulus is odd and at least 3, its coefficients are reduced, its
cubic has no repeated root and its base point is on the curve. -/
theorem accepted_iff {d : Domain} :
    d.Accepted ↔ d.modulus % 2 = 1 ∧ 3 ≤ d.modulus ∧ d.a < d.modulus ∧ d.b < d.modulus ∧
      ¬IsSingular d.modulus d.a d.b ∧ d.HasPoint d.generator := by
  constructor
  · rintro ⟨name, p, a, b, generator, order, cofactor, h⟩
    unfold create at h
    split at h
    · cases h
    · rename_i hp
      have hodd : p % 2 = 1 := by omega
      have hthree : 3 ≤ p := by omega
      simp only at h
      split at h
      · cases h
      · rename_i hsing
        obtain ⟨_, hgen, hd⟩ := bind_eq_ok_iff.1 h
        cases hd
        exact ⟨hodd, hthree, Nat.mod_lt _ (by omega), Nat.mod_lt _ (by omega), hsing,
          checkGenerator_eq_ok_iff.1 hgen⟩
  · rintro ⟨hodd, hp, ha, hb, hsing, hgen⟩
    refine ⟨d.name, d.modulus, d.a, d.b, d.generator, d.order, d.cofactor, ?_⟩
    rw [create, if_neg (by omega), Nat.mod_eq_of_lt ha, Nat.mod_eq_of_lt hb]
    simp only [if_neg hsing, checkGenerator_eq_ok_iff.2 hgen, ok_bind, pure_eq_ok]

instance (d : Domain) : Decidable d.Accepted := decidable_of_iff' _ accepted_iff

namespace Accepted

variable {d : Domain}

theorem odd (h : d.Accepted) : d.modulus % 2 = 1 := (accepted_iff.1 h).1

theorem three_le (h : d.Accepted) : 3 ≤ d.modulus := (accepted_iff.1 h).2.1

theorem not_singular (h : d.Accepted) : ¬IsSingular d.modulus d.a d.b :=
  (accepted_iff.1 h).2.2.2.2.1

theorem hasPoint_generator (h : d.Accepted) : d.HasPoint d.generator := (accepted_iff.1 h).2.2.2.2.2

end Accepted

/-- The curve `y² = x³ + 2x + 1` modulo 3, the smallest modulus of all.  Its seven points are the
multiples of the base point. -/
def sevenPoints : Domain := ⟨⟨3, 2, 1⟩, "seven points", .affine 0 1, 7, 1⟩

/-- The curve `y² = x³ + x + 1` modulo 15, which is not a field. -/
def fifteen : Domain := ⟨⟨15, 1, 1⟩, "fifteen", .affine 0 1, 7, 1⟩

end SigScript.Domain
