import Mathlib
import SigScript.Proofs.Curve.Session
import SigScript.Proofs.Ecdsa.Completeness

/-!
# When verification fails

Over an accepted domain of prime modulus the only failure of a verification is a second component
without an inverse modulo the order (`verify_fails_without_inverse`).  All denominators in the
multiples of points have inverses, so the order alone decides, and a prime order never lets a
verification fail.  No subtraction of a verification is negative and no divisor is 0
(`Checked.verify_eq`).
-/

namespace SigScript

/-! ### Verification with checked arithmetic -/

namespace Checked

/-- The remainder of a division by a number that must not be 0. -/
def mod (a n : Nat) : Checked Nat := if n = 0 then ExceptT.mk none else pure (a % n)

/-- The point whose abscissa a signature has to match. -/
def verificationPoint (scheme : Ecdsa) (publicKey : CurvePoint) (e r s : Nat) :
    Checked CurvePoint := do
  let n := scheme.domain.order
  let inverse ← lift (Residue.inverse s n)
  let first ← mulNatPoint (← mod (e * inverse) n) scheme.domain.basePoint
  let second ← mulNatPoint (← mod (r * inverse) n) publicKey
  addPoints first second

/-- Whether a signature of a message is valid for a public key. -/
def verify (scheme : Ecdsa) (publicKey : CurvePoint) (message : Bytes) (sig : Signature) :
    Checked Bool := do
  lift (CurvePoint.checkDomain scheme.domain publicKey)
  if ¬(scheme.InRange sig.r ∧ scheme.InRange sig.s) then return false
  else if publicKey.coordinates = .infinity ∨ ¬publicKey.OnCurve then return false
  else
    let e ← lift (scheme.messageScalar message)
    let point ← verificationPoint scheme publicKey e sig.r.toNat sig.s.toNat
    match point.coordinates.x? with
    | none => return false
    | some x => return (← mod x scheme.domain.order) = sig.r.toNat

theorem mod_eq (a : Nat) {n : Nat} (hn : n ≠ 0) : mod a n = lift (.ok (a % n)) := if_neg hn

variable {scheme : Ecdsa} {Q : CurvePoint}

theorem verificationPoint_eq (hd : scheme.domain.Accepted) (hn : scheme.domain.order ≠ 0)
    (hQ : Q.OnCurve) (e r s : Nat) :
    verificationPoint scheme Q e r s = lift (scheme.verificationPoint Q e r s) := by
  have hG := CurvePoint.liesOn_basePoint hd
  refine bind_eq fun inverse _ => ?_
  rw [mod_eq _ hn, lift_ok_bind, mulNatPoint_eq _ hG.2]
  refine bind_eq fun first hfirst => ?_
  rw [mod_eq _ hn, lift_ok_bind, mulNatPoint_eq _ hQ]
  exact bind_eq fun second _ => addPoints_eq (hG.mulNat hfirst).2

/-- A verification is never stopped: the order is not 0 once a component has passed the test of its
range. -/
theorem verify_eq (hd : scheme.domain.Accepted) (hQ : Q.OnCurve) (message : Bytes)
    (sig : Signature) : verify scheme Q message sig = lift (scheme.verify Q message sig) := by
  refine bind_eq fun _ _ => ?_
  split
  · rfl
  · rename_i hrange
    have hn : scheme.domain.order ≠ 0 := by
      obtain ⟨hpos, hlt⟩ := (not_not.1 hrange).1
      omega
    split
    · rfl
    · refine bind_eq fun e _ => ?_
      rw [verificationPoint_eq hd hn hQ]
      refine bind_eq fun point _ => ?_
      cases point.coordinates.x? with
      | none => rfl
      | some x => simp only [mod_eq _ hn, lift_ok_bind]; rfl

end Checked

namespace Ecdsa

variable {scheme : Ecdsa} {Q : CurvePoint} {message : Bytes} {sig : Signature}

/-! ### The ways through a verification -/

/-- Either one of the tests that come before the arithmetic refuses, or all of them pass. -/
theorem refused_or_passes (scheme : Ecdsa) (Q : CurvePoint) (sig : Signature) :
    (¬scheme.InRange sig.r ∨ ¬scheme.InRange sig.s ∨ Q.coordinates = .infinity) ∨
      scheme.InRange sig.r ∧ scheme.InRange sig.s ∧ Q.coordinates ≠ .infinity := by
  tauto

/-- A component out of range or a public key at infinity makes a signature invalid. -/
theorem verify_of_refused (hQ : Q.domain = scheme.domain)
    (h : ¬scheme.InRange sig.r ∨ ¬scheme.InRange sig.s ∨ Q.coordinates = .infinity) :
    scheme.verify Q message sig = .ok false := by
  rw [verify, CurvePoint.checkDomain_eq_ok_iff.2 hQ, ok_bind]
  by_cases hrange : scheme.InRange sig.r ∧ scheme.InRange sig.s
  · have hinf : Q.coordinates = .infinity := by tauto
    rw [if_neg (not_not.2 hrange), if_pos (.inl hinf), pure_eq_ok]
  · rw [if_pos hrange, pure_eq_ok]

/-- What passes the tests is decided by the abscissa of the verification point. -/
theorem verify_of_passes (hQ : Q.LiesOn scheme.domain) (hr : scheme.InRange sig.r)
    (hs : scheme.InRange sig.s) (hne : Q.coordinates ≠ .infinity) {e : Nat}
    (he : scheme.messageScalar message = .ok e) :
    scheme.verify Q message sig =
      (scheme.verificationPoint Q e sig.r.toNat sig.s.toNat).map fun point =>
        point.coordinates.x?.any fun x => x % scheme.domain.order = sig.r.toNat := by
  have hkey : ¬(Q.coordinates = .infinity ∨ ¬Q.OnCurve) := by
    rintro (hinf | hoff)
    · exact hne hinf
    · exact hoff hQ.2
  rw [verify, CurvePoint.checkDomain_eq_ok_iff.2 hQ.1, ok_bind, if_neg (not_not.2 ⟨hr, hs⟩),
    if_neg hkey, he, ok_bind]
  cases scheme.verificationPoint Q e sig.r.toNat sig.s.toNat with
  | error e => rfl
  | ok point =>
    rw [ok_bind, map_ok]
    cases point.coordinates.x? <;> rfl

theorem exists_messageScalar (hhash : scheme.hash.Supported) (message : Bytes) :
    ∃ e, scheme.messageScalar message = .ok e := by
  obtain ⟨octets, hoctets⟩ := HashAlgorithm.exists_digest hhash message
  exact ⟨_, by rw [messageScalar, hoctets, map_ok]⟩

/-! ### The verification point -/

theorem exists_verificationPoint (hd : scheme.domain.Accepted) (hp : scheme.domain.modulus.Prime)
    (hQ : Q.LiesOn scheme.domain) (e r : Nat) {s w : Nat}
    (hs : Residue.inverse s scheme.domain.order = .ok w) :
    ∃ point, scheme.verificationPoint Q e r s = .ok point := by
  have : Fact scheme.domain.modulus.Prime := ⟨hp⟩
  obtain ⟨A, hA⟩ := scheme.domain.exists_point hd (CurvePoint.liesOn_basePoint hd)
  obtain ⟨B, rfl⟩ := scheme.domain.exists_point hd hQ
  exact ⟨_, verificationPoint_point hd hA e r hs⟩

theorem verificationPoint_of_error {e r s : Nat} {failure : CryptoError}
    (hs : Residue.inverse s scheme.domain.order = .error failure) :
    scheme.verificationPoint Q e r s = .error failure := by
  rw [verificationPoint, hs, error_bind]

theorem InRange.natCast_toNat {v : Int} (h : scheme.InRange v) : (v.toNat : Int) = v :=
  Int.toNat_of_nonneg h.1.le

theorem InRange.two_le_order {v : Int} (h : scheme.InRange v) : 2 ≤ scheme.domain.order := by
  obtain ⟨hpos, hlt⟩ := h
  omega

theorem InRange.gcd_eq_one {v : Int} (h : scheme.InRange v) (hn : scheme.domain.order.Prime) :
    v.gcd scheme.domain.order = 1 := by
  obtain ⟨hpos, hlt⟩ := h
  obtain ⟨k, rfl⟩ := Int.eq_ofNat_of_zero_le hpos.le
  rw [Int.gcd_natCast_natCast]
  exact (Nat.coprime_of_lt_prime (by omega) (by omega) hn).symm

/-! ### Outcomes -/

section Passed

variable (hQ : Q.LiesOn scheme.domain) (hhash : scheme.hash.Supported)
  (hr : scheme.InRange sig.r) (hs : scheme.InRange sig.s) (hne : Q.coordinates ≠ .infinity)
include hQ hhash hr hs hne

theorem exists_verify_of_coprime (hd : scheme.domain.Accepted) (hp : scheme.domain.modulus.Prime)
    (hgcd : sig.s.gcd scheme.domain.order = 1) :
    ∃ valid, scheme.verify Q message sig = .ok valid := by
  obtain ⟨e, he⟩ := exists_messageScalar hhash message
  have hn := hs.two_le_order
  have hcoprime : ((sig.s.toNat : Int) % scheme.domain.order).toNat.gcd scheme.domain.order = 1 := by
    rw [hs.natCast_toNat, Residue.gcd_toNat_emod _ (by omega), hgcd]
  obtain ⟨point, hpoint⟩ := exists_verificationPoint hd hp hQ e sig.r.toNat
    (Residue.inverse_of_coprime hn hcoprime)
  rw [verify_of_passes hQ hr hs hne he, hpoint]
  exact ⟨_, rfl⟩

theorem verify_of_not_coprime (hgcd : sig.s.gcd scheme.domain.order ≠ 1) :
    scheme.verify Q message sig = .error (.notInvertible sig.s scheme.domain.order) := by
  obtain ⟨e, he⟩ := exists_messageScalar hhash message
  have hn := hs.two_le_order
  have hfail : Residue.inverse sig.s scheme.domain.order =
      .error (.notInvertible sig.s scheme.domain.order) := by
    refine Residue.inverse_of_not_coprime hn ?_
    rwa [Residue.gcd_toNat_emod _ (by omega)]
  rw [← hs.natCast_toNat] at hfail
  rw [verify_of_passes hQ hr hs hne he, verificationPoint_of_error hfail, hs.natCast_toNat]
  rfl

end Passed

/-- A verification is never stopped by a negative difference or a division by 0.  It fails when, and
only when, both components are in range, the public key is finite and the second component shares a
factor with the order, and the failure says so.  Components out of range and a public key at infinity
make the signature invalid.  Over a prime order no signature makes a verification fail. -/
theorem verify_fails_without_inverse (hd : scheme.domain.Accepted)
    (hp : scheme.domain.modulus.Prime) (hhash : scheme.hash.Supported)
    (hQ : Q.LiesOn scheme.domain) (message : Bytes) (sig : Signature) :
    Checked.verify scheme Q message sig = Checked.lift (scheme.verify Q message sig) ∧
    (∀ failure, scheme.verify Q message sig = .error failure ↔
      (scheme.InRange sig.r ∧ scheme.InRange sig.s ∧ Q.coordinates ≠ .infinity ∧
        sig.s.gcd scheme.domain.order ≠ 1) ∧
      failure = .notInvertible sig.s scheme.domain.order) ∧
    (¬scheme.InRange sig.r ∨ ¬scheme.InRange sig.s ∨ Q.coordinates = .infinity →
      scheme.verify Q message sig = .ok false) ∧
    (scheme.domain.order.Prime → ∃ valid, scheme.verify Q message sig = .ok valid) := by
  refine ⟨Checked.verify_eq hd hQ.2 message sig, ?_, verify_of_refused hQ.1, ?_⟩
  · intro failure
    obtain hrefused | ⟨hr, hs, hne⟩ := refused_or_passes scheme Q sig
    · rw [verify_of_refused hQ.1 hrefused]
      refine iff_of_false nofun ?_
      rintro ⟨⟨hr, hs, hne, -⟩, -⟩
      tauto
    · by_cases hgcd : sig.s.gcd scheme.domain.order = 1
      · obtain ⟨valid, hvalid⟩ : ∃ valid, scheme.verify Q message sig = .ok valid :=
          exists_verify_of_coprime hQ hhash hr hs hne hd hp hgcd
        rw [hvalid]
        exact iff_of_false nofun fun h => h.1.2.2.2 hgcd
      · rw [verify_of_not_coprime hQ hhash hr hs hne hgcd, Except.error.injEq]
        exact ⟨fun h => ⟨⟨hr, hs, hne, hgcd⟩, h.symm⟩, fun h => h.2.symm⟩
  · intro hn
    obtain hrefused | ⟨hr, hs, hne⟩ := refused_or_passes scheme Q sig
    · exact ⟨false, verify_of_refused hQ.1 hrefused⟩
    · exact exists_verify_of_coprime hQ hhash hr hs hne hd hp (hs.gcd_eq_one hn)

/-- With the order given as 6, the component 2 makes a verification fail; with the true order 7 it
does not. -/
theorem verify_fails_without_inverse_six :
    (⟨{ Domain.sevenPoints with order := 6 }, .sha256⟩ : Ecdsa).verify
        ⟨{ Domain.sevenPoints with order := 6 }, .affine 2 2⟩ [] ⟨1, 2⟩ =
      .error (.notInvertible 2 6) ∧
    ∃ valid, (⟨.sevenPoints, .sha256⟩ : Ecdsa).verify ⟨.sevenPoints, .affine 2 2⟩ [] ⟨1, 2⟩ =
      .ok valid := by
  have hsix := @verify_fails_without_inverse ⟨{ Domain.sevenPoints with order := 6 }, .sha256⟩
    ⟨{ Domain.sevenPoints with order := 6 }, .affine 2 2⟩ (by decide) Nat.prime_three (by decide)
    (by decide) [] ⟨1, 2⟩
  have hseven := @verify_fails_without_inverse ⟨.sevenPoints, .sha256⟩
    ⟨.sevenPoints, .affine 2 2⟩ (by decide) Nat.prime_three (by decide) (by decide) [] ⟨1, 2⟩
  exact ⟨(hsix.2.1 _).2 ⟨by decide, rfl⟩, hseven.2.2.2 Nat.prime_seven⟩

end Ecdsa

end SigScript
