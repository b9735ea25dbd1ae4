import Mathlib
import SigScript.Ecdsa.Scheme
import SigScript.Proofs.Curve.Multiple

/-!
# Signatures verify

Over a domain of prime modulus and prime order, signing never fails and verification accepts every
signature that it gives, whatever ephemeral scalars were drawn (`verify_sign`).  An attempt that
gives a signature leaves an equation between residues modulo the order (`IsSignature.equation`);
because of it verification computes the ephemeral point again (`verificationPoint_eq`).
-/

namespace SigScript

/-! ### Digests -/

namespace HashAlgorithm

/-- The hash function has a digest length that exists. -/
def Supported (hash : HashAlgorithm) : Prop := 1 ≤ hash.outputBits ∧ hash.outputBits ≤ 256

instance (hash : HashAlgorithm) : Decidable hash.Supported := inferInstanceAs (Decidable (_ ∧ _))

theorem exists_digest {hash : HashAlgorithm} (h : hash.Supported) (data : Bytes) :
    ∃ octets, hash.digest data = .ok octets := by
  cases hash with
  | lsh256 bits =>
    have hbits : ¬(bits = 0 ∨ 256 < bits) := by
      have hone : 1 ≤ bits := h.1
      have hmax : bits ≤ 256 := h.2
      omega
    rw [digest, hasher, Lsh.State.new, if_neg hbits]
    exact ⟨_, rfl⟩
  | sha256 => exact ⟨_, rfl⟩
  | sha3 => exact ⟨_, rfl⟩

end HashAlgorithm

/-! ### Keys -/

/-- A scalar that can be a secret or be drawn as an ephemeral one. -/
def Domain.IsScalar (d : Domain) (k : Nat) : Prop := 1 ≤ k ∧ k < d.order

instance (d : Domain) (k : Nat) : Decidable (d.IsScalar k) := inferInstanceAs (Decidable (_ ∧ _))

theorem Domain.IsScalar.ne_zero {d : Domain} {k : Nat} (hk : d.IsScalar k) :
    (k : ZMod d.order) ≠ 0 := by
  intro h
  have hdvd := (ZMod.natCast_eq_zero_iff k d.order).1 h
  exact absurd (Nat.le_of_dvd hk.1 hdvd) (not_le.2 hk.2)

section Generator

variable {d : Domain} [Fact d.modulus.Prime] {A : d.toWeierstrass.Point} {k : Nat}

/-- The domain is accepted, `A` is its base point, and its order is a prime that annihilates `A`. -/
structure Domain.GeneratedBy (d : Domain) [Fact d.modulus.Prime] (A : d.toWeierstrass.Point) :
    Prop where
  accepted : d.Accepted
  prime_order : d.order.Prime
  basePoint_eq : d.basePoint = d.point A
  order_nsmul : d.order • A = 0

theorem Domain.Accepted.exists_generatedBy (hd : d.Accepted) (hn : d.order.Prime)
    (hG : d.basePoint.mulNat d.order = .ok (.infinity d)) : ∃ A, d.GeneratedBy A := by
  obtain ⟨A, hA⟩ := d.exists_point hd (CurvePoint.liesOn_basePoint hd)
  rw [hA] at hG
  exact ⟨A, hd, hn, hA, (d.mulNat_point_eq_infinity_iff hd).1 hG⟩

theorem KeyPair.ofSecret_eq (hA : d.GeneratedBy A) (hk : d.IsScalar k) :
    KeyPair.ofSecret d k = .ok ⟨k, d.point (k • A)⟩ := by
  have hrange : ¬(k = 0 ∨ d.order ≤ k) := by
    obtain ⟨hpos, hlt⟩ := hk
    omega
  rw [ofSecret, if_neg hrange, hA.basePoint_eq, d.mulNat_point hA.accepted, map_ok]

/-- Only infinity has a multiple by a scalar that is infinity. -/
theorem Domain.GeneratedBy.eq_zero_of_nsmul (hA : d.GeneratedBy A) (hk : d.IsScalar k)
    (h : k • A = 0) : A = 0 := by
  have hcoprime : k.gcd d.order = 1 :=
    (Nat.coprime_of_lt_prime (Nat.one_le_iff_ne_zero.1 hk.1) hk.2 hA.prime_order).symm
  have hgcd : k.gcd d.order • A = 0 := gcd_nsmul_eq_zero.2 ⟨h, hA.order_nsmul⟩
  rw [← one_nsmul A, ← hcoprime, hgcd]

end Generator

/-- The inverse of a scalar modulo a prime order. -/
theorem Domain.IsScalar.inverse_eq {d : Domain} {k : Nat} (hn : d.order.Prime)
    (hk : d.IsScalar k) : Residue.inverse k d.order = .ok (k : ZMod d.order)⁻¹.val := by
  have : Fact d.order.Prime := ⟨hn⟩
  have hne : ((k : Int) : ZMod d.order) ≠ 0 := by
    rw [Int.cast_natCast]
    exact hk.ne_zero
  rw [Residue.inverse_of_ne_zero hne, Int.cast_natCast]

namespace Ecdsa

theorem inRange_natCast_iff {scheme : Ecdsa} {k : Nat} :
    scheme.InRange k ↔ scheme.domain.IsScalar k := by
  unfold InRange Domain.IsScalar
  omega

section Prime

variable {scheme : Ecdsa} [Fact scheme.domain.modulus.Prime]

/-! ### Signing -/

/-- What an attempt with the ephemeral scalar `k` that gives the signature `(r, s)` has found, where
`A` is the base point and `e` the message scalar. -/
structure IsSignature (scheme : Ecdsa) (A : scheme.domain.toWeierstrass.Point)
    [Fact scheme.domain.modulus.Prime] (secret e k r s : Nat) : Prop where
  r_inRange : scheme.InRange r
  s_inRange : scheme.InRange s
  abscissa : (Curve.ofPoint (k • A)).x?.map (· % scheme.domain.order) = some r
  equation : (k : ZMod scheme.domain.order) * s = e + r * secret

/-- An attempt with a scalar never fails. -/
theorem exists_signWith? {A : scheme.domain.toWeierstrass.Point} (hA : scheme.domain.GeneratedBy A)
    {k : Nat} (hk : scheme.domain.IsScalar k) (secret e : Nat) :
    ∃ outcome, scheme.signWith? secret e k = .ok outcome ∧ ∀ sig, outcome = some sig →
      ∃ r s : Nat, sig = ⟨r, s⟩ ∧ IsSignature scheme A secret e k r s := by
  have : Fact scheme.domain.order.Prime := ⟨hA.prime_order⟩
  have hmod : ∀ m, m % scheme.domain.order < scheme.domain.order :=
    fun m => Nat.mod_lt m hA.prime_order.pos
  unfold signWith?
  rw [KeyPair.ofSecret_eq hA hk]
  simp only [ok_bind, Domain.point]
  -- No signature comes from a point at infinity or when a component would be 0.
  cases hx : (Curve.ofPoint (k • A)).x? with
  | none => exact ⟨none, rfl, by simp⟩
  | some x =>
    simp only
    by_cases hr : x % scheme.domain.order = 0
    · rw [if_pos hr]
      exact ⟨none, rfl, by simp⟩
    rw [if_neg hr, hk.inverse_eq hA.prime_order, ok_bind]
    split
    · exact ⟨none, rfl, by simp⟩
    · rename_i hs
      refine ⟨_, rfl, ?_⟩
      rintro sig ⟨⟩
      refine ⟨_, _, rfl, ?_, ?_, by simp [hx], ?_⟩
      · have hlt := hmod x
        constructor <;> omega
      · have hlt := hmod ((k : ZMod scheme.domain.order)⁻¹.val *
          (e + x % scheme.domain.order * secret))
        constructor <;> omega
      · -- The second component was made with the inverse of the ephemeral scalar.
        push_cast [ZMod.natCast_mod, ZMod.natCast_zmod_val]
        rw [← mul_assoc, mul_inv_cancel₀ hk.ne_zero, one_mul]

/-! ### Verification -/

/-- The verification point is a combination of the base point and the public key in the group. -/
theorem verificationPoint_point {A B : scheme.domain.toWeierstrass.Point}
    (hd : scheme.domain.Accepted) (hA : scheme.domain.basePoint = scheme.domain.point A)
    (e r : Nat) {s w : Nat} (hs : Residue.inverse s scheme.domain.order = .ok w) :
    scheme.verificationPoint (scheme.domain.point B) e r s =
      .ok (scheme.domain.point
        ((e * w % scheme.domain.order) • A + (r * w % scheme.domain.order) • B)) := by
  rw [verificationPoint, hs, ok_bind, hA, Domain.mulNat_point hd, ok_bind, Domain.mulNat_point hd,
    ok_bind, Domain.add_point hd]

section Verify

variable {A : scheme.domain.toWeierstrass.Point} {secret e k r s : Nat}

theorem IsSignature.isScalar (h : IsSignature scheme A secret e k r s) :
    scheme.domain.IsScalar s := inRange_natCast_iff.1 h.s_inRange

/-- The two scalars of verification add up to the ephemeral one. -/
theorem IsSignature.modEq (hn : scheme.domain.order.Prime)
    (h : IsSignature scheme A secret e k r s) :
    e * (s : ZMod scheme.domain.order)⁻¹.val % scheme.domain.order +
      r * (s : ZMod scheme.domain.order)⁻¹.val % scheme.domain.order * secret ≡
        k [MOD scheme.domain.order] := by
  have : Fact scheme.domain.order.Prime := ⟨hn⟩
  rw [← ZMod.natCast_eq_natCast_iff]
  push_cast [ZMod.natCast_mod, ZMod.natCast_zmod_val]
  calc (e * (s : ZMod scheme.domain.order)⁻¹ + r * (s : ZMod scheme.domain.order)⁻¹ * secret)
      = (e + r * secret) * (s : ZMod scheme.domain.order)⁻¹ := by ring
    _ = k * s * (s : ZMod scheme.domain.order)⁻¹ := by rw [h.equation]
    _ = k := mul_inv_cancel_right₀ h.isScalar.ne_zero _

theorem verificationPoint_eq (hA : scheme.domain.GeneratedBy A)
    (h : IsSignature scheme A secret e k r s) :
    scheme.verificationPoint (scheme.domain.point (secret • A)) e r s =
      .ok (scheme.domain.point (k • A)) := by
  rw [verificationPoint_point hA.accepted hA.basePoint_eq e r
      (h.isScalar.inverse_eq hA.prime_order), ← mul_nsmul', ← add_nsmul,
    nsmul_eq_nsmul_of_modEq (h.modEq hA.prime_order) hA.order_nsmul]

/-- The public key of a secret that has signed is a finite point. -/
theorem publicKey_ne_infinity (hA : scheme.domain.GeneratedBy A)
    (hsecret : scheme.domain.IsScalar secret) (h : IsSignature scheme A secret e k r s) :
    (scheme.domain.point (secret • A)).coordinates ≠ .infinity := by
  intro hinf
  have hzero : A = 0 := hA.eq_zero_of_nsmul hsecret (Curve.ofPoint_eq_infinity_iff.1 hinf)
  have habscissa := h.abscissa
  rw [hzero, nsmul_zero, Curve.ofPoint_zero] at habscissa
  cases habscissa

theorem verify_of_isSignature (hA : scheme.domain.GeneratedBy A)
    (hsecret : scheme.domain.IsScalar secret) (h : IsSignature scheme A secret e k r s)
    {message : Bytes} (he : scheme.messageScalar message = .ok e) :
    scheme.verify (scheme.domain.point (secret • A)) message ⟨r, s⟩ = .ok true := by
  have hrange : ¬¬(scheme.InRange r ∧ scheme.InRange s) := not_not.2 ⟨h.r_inRange, h.s_inRange⟩
  have hkey : ¬((scheme.domain.point (secret • A)).coordinates = .infinity ∨
      ¬(scheme.domain.point (secret • A)).OnCurve) := by
    rintro (hinf | hoff)
    · exact publicKey_ne_infinity hA hsecret h hinf
    · exact hoff (scheme.domain.liesOn_point (secret • A)).2
  obtain ⟨x, hx, hr⟩ := Option.map_eq_some_iff.1 h.abscissa
  unfold verify
  rw [Domain.checkDomain_point, ok_bind, if_neg hrange, if_neg hkey, he, ok_bind, Int.toNat_natCast,
    Int.toNat_natCast, verificationPoint_eq hA h, ok_bind]
  simp only [Domain.point, hx, hr]
  rfl

end Verify

end Prime

/-- Signing with scalars in range never fails, and every signature that it gives is in range and
verifies with the public key. -/
theorem verify_sign {scheme : Ecdsa} (hd : scheme.domain.Accepted) (hp : scheme.domain.modulus.Prime)
    (hn : scheme.domain.order.Prime)
    (hG : scheme.domain.basePoint.mulNat scheme.domain.order = .ok (.infinity scheme.domain))
    (hhash : scheme.hash.Supported) {secret : Nat} (hsecret : scheme.domain.IsScalar secret)
    (message : Bytes) {ephemerals : List Nat}
    (hephemerals : ∀ k ∈ ephemerals, scheme.domain.IsScalar k) :
    ∃ key, KeyPair.ofSecret scheme.domain secret = .ok key ∧
      ∃ outcome, scheme.sign key message ephemerals = .ok outcome ∧ ∀ sig, outcome = some sig →
        scheme.InRange sig.r ∧ scheme.InRange sig.s ∧
          scheme.verify key.publicKey message sig = .ok true := by
  have : Fact scheme.domain.modulus.Prime := ⟨hp⟩
  obtain ⟨A, hA⟩ := hd.exists_generatedBy hn hG
  obtain ⟨octets, hoctets⟩ := HashAlgorithm.exists_digest hhash message
  have he : scheme.messageScalar message = .ok (leftmostBits scheme.domain.order octets) := by
    rw [messageScalar, hoctets, map_ok]
  refine ⟨_, KeyPair.ofSecret_eq hA hsecret, ?_⟩
  obtain ⟨outcome, houtcome, hsig⟩ := findSomeM?_spec fun k hk =>
    exists_signWith? hA (hephemerals k hk) secret (leftmostBits scheme.domain.order octets)
  refine ⟨outcome, ?_, ?_⟩
  · rw [sign, Domain.checkDomain_point, ok_bind, he, ok_bind, houtcome]
  · intro sig heq
    obtain ⟨k, -, r, s, rfl, h⟩ := hsig sig heq
    exact ⟨h.r_inRange, h.s_inRange, verify_of_isSignature hA hsecret h he⟩

theorem verify_sign_sevenPoints :
    (⟨.sevenPoints, .sha256⟩ : Ecdsa).sign ⟨3, ⟨.sevenPoints, .affine 2 2⟩⟩ [] [1, 2] =
      .ok (some ⟨1, 5⟩) ∧
    (⟨.sevenPoints, .sha256⟩ : Ecdsa).verify ⟨.sevenPoints, .affine 2 2⟩ [] ⟨1, 5⟩ = .ok true := by
  have hkey : KeyPair.ofSecret .sevenPoints 3 = .ok ⟨3, ⟨.sevenPoints, .affine 2 2⟩⟩ := by
    decide +kernel
  have hsign : (⟨.sevenPoints, .sha256⟩ : Ecdsa).sign ⟨3, ⟨.sevenPoints, .affine 2 2⟩⟩ [] [1, 2] =
      .ok (some ⟨1, 5⟩) := by decide +kernel
  obtain ⟨key, hkey', outcome, houtcome, hverify⟩ :=
    @verify_sign ⟨.sevenPoints, .sha256⟩ (by decide) Nat.prime_three Nat.prime_seven
      (by decide +kernel) (by decide) 3 (by decide) [] [1, 2] (by decide)
  -- the key and the signature that the theorem speaks of are the computed ones
  obtain rfl := Except.ok.inj (hkey.symm.trans hkey')
  obtain rfl := Except.ok.inj (hsign.symm.trans houtcome)
  exact ⟨hsign, (hverify _ rfl).2.2⟩

end Ecdsa

end SigScript
