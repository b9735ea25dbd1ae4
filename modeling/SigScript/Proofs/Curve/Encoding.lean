import Mathlib
import SigScript.Bytes.Lemmas
import SigScript.Proofs.Curve.Closure
import SigScript.Proofs.Residue.Completeness

/-!
# Decoding inverts the two encodings

Only the two encodings of a point decode to it (`eq_of_decode`).  The uncompressed one always does
(`decode_uncompressed`); the compressed one does over a field (`decode_compressed`), where an
abscissa has at most two ordinates and an odd modulus gives them different parities.
-/

namespace SigScript.Curve

variable {E : Curve} {octet : UInt8} {odd : Bool} {octets rest : Bytes} {P : Coordinates}
  {x y y' : Nat}

/-! ### Coordinates -/

theorem coordinateLength_pos (hp : 0 < E.modulus) : 0 < E.coordinateLength := by
  rw [Nat.pos_iff_ne_zero]
  intro hzero
  have hlt := Bytes.byteLength_le_iff.1 hzero.le
  rw [pow_zero] at hlt
  omega

/-- A coordinate has one encoding of the length of the modulus. -/
theorem readCoordinate_eq_ok_iff (hlen : octets.length = E.coordinateLength) :
    E.readCoordinate octets = .ok x ↔
      x < E.modulus ∧ octets = Bytes.ofNatPadded E.coordinateLength x := by
  constructor
  · intro h
    refine ⟨lt_of_readCoordinate h, ?_⟩
    obtain ⟨_, -, hx⟩ := bind_eq_ok_iff.1 h
    cases hx
    rw [← hlen, Bytes.ofNatPadded_toNat]
  · rintro ⟨hx, rfl⟩
    have hlt : x < 256 ^ E.coordinateLength := hx.trans (Bytes.lt_pow_byteLength E.modulus)
    have hvalue : Bytes.toNat (Bytes.ofNatPadded E.coordinateLength x) = x := by
      rw [Bytes.toNat_ofNatPadded, Nat.mod_eq_of_lt hlt]
    simp only [readCoordinate, checkReduced, hvalue, if_pos hx, ok_bind, pure_eq_ok]

/-! ### The parity of an ordinate -/

/-- The root that is found or its negative has the parity that is asked for: the two add up to the
odd modulus. -/
theorem odd_of_liftX (hp : E.modulus % 2 = 1) (h : E.liftX octet odd x = .ok y) :
    odd = decide (y % 2 = 1) := by
  obtain ⟨root, hroot, hy⟩ := bind_eq_ok_iff.1 h
  have hlt := Residue.lt_of_sqrt hroot
  split at hy
  · cases hy
  · rename_i hzero
    split at hy
    · rename_i hparity
      cases hy
      exact hparity.symm
    · rename_i hparity
      cases hy
      have hpos : root ≠ 0 := by
        rintro rfl
        cases odd with
        | false => exact hparity (by decide)
        | true => exact hzero ⟨rfl, rfl⟩
      have hneg : (E.modulus - root) % E.modulus = E.modulus - root := Nat.mod_eq_of_lt (by omega)
      rw [hneg]
      cases odd with
      | false =>
        have hroot : root % 2 = 1 := by simpa using hparity
        exact (decide_eq_false (by omega)).symm
      | true =>
        have hroot : root % 2 = 0 := by simpa using hparity
        exact (decide_eq_true (by omega)).symm

section Field

variable [Fact E.modulus.Prime]

/-- Over a field the parity tells the two ordinates of an abscissa apart. -/
theorem eq_of_parity (hp : E.modulus % 2 = 1) (h : E.Contains x y) (h' : E.Contains x y')
    (hparity : y % 2 = y' % 2) : y = y' := by
  obtain ⟨-, hy, heq⟩ := h
  obtain ⟨-, hy', heq'⟩ := h'
  have hsq : (y : ZMod E.modulus) ^ 2 = (y' : ZMod E.modulus) ^ 2 := by
    rw [satisfies_iff, equation_iff] at heq heq'
    rw [heq, heq']
  obtain hsame | hneg := sq_eq_sq_iff_eq_or_eq_neg.1 hsq
  · rw [ZMod.natCast_eq_natCast_iff', Nat.mod_eq_of_lt hy, Nat.mod_eq_of_lt hy'] at hsame
    exact hsame
  · have hsum : (y + y') % E.modulus = 0 := by
      rw [← Residue.cast_eq_zero_iff, Nat.cast_add, hneg, neg_add_cancel]
    -- The sum is even and below twice the modulus, so it is zero.
    have hcases : y + y' = 0 ∨ y + y' = E.modulus := by
      obtain ⟨k, hk⟩ := Nat.dvd_of_mod_eq_zero hsum
      obtain rfl | rfl | hk2 : k = 0 ∨ k = 1 ∨ 2 ≤ k := by omega
      · exact .inl hk
      · exact .inr (by rw [hk, mul_one])
      · have := Nat.mul_le_mul_left E.modulus hk2
        omega
    omega

theorem liftX_of_contains (hp : E.modulus % 2 = 1) (h : E.Contains x y) :
    E.liftX octet (decide (y % 2 = 1)) x = .ok y := by
  have hsq : ((E.rhs x : Nat) : ZMod E.modulus) = (y : ZMod E.modulus) ^ 2 := by
    rw [← Nat.cast_pow, ZMod.natCast_eq_natCast_iff', pow_two, h.2.2, rhs, Nat.mod_mod]
  obtain ⟨root, hroot⟩ := Residue.exists_sqrt hp (n := E.rhs x) ⟨y, by rw [hsq, pow_two]⟩
  obtain ⟨y', hy'⟩ : ∃ y', E.liftX octet (decide (y % 2 = 1)) x = .ok y' := by
    -- The root 0 is that of an even ordinate, so it is not asked to be odd.
    have hrefused : ¬(root = 0 ∧ decide (y % 2 = 1) = true) := by
      rintro ⟨rfl, hodd⟩
      have hzero : (y : ZMod E.modulus) ^ 2 = 0 := by
        rw [← hsq, ← Residue.sq_of_sqrt hroot, Nat.cast_zero, zero_pow two_ne_zero]
      have hy : y % E.modulus = 0 := Residue.cast_eq_zero_iff.1 (pow_eq_zero_iff two_ne_zero |>.1 hzero)
      rw [Nat.mod_eq_of_lt h.2.1] at hy
      rw [hy] at hodd
      cases hodd
    rw [liftX, hroot, ok_bind, if_neg hrefused]
    split
    · exact ⟨_, rfl⟩
    · exact ⟨_, rfl⟩
  have hparity : y % 2 = y' % 2 := by
    have := decide_eq_decide.1 (odd_of_liftX hp hy')
    omega
  rw [hy', eq_of_parity hp h (contains_of_liftX h.1 hy') hparity]

end Field

/-! ### The two forms -/

theorem eq_compressed_of_decodeCompressed (hp : E.modulus % 2 = 1)
    (hlen : rest.length = E.coordinateLength) (h : E.decodeCompressed octet rest = .ok P) :
    octet :: rest = E.compressed P := by
  unfold decodeCompressed at h
  split at h
  · rename_i hoctet
    obtain ⟨x, hx, h⟩ := bind_eq_ok_iff.1 h
    obtain ⟨y, hy, hP⟩ := bind_eq_ok_iff.1 h
    cases hP
    obtain ⟨-, hrest⟩ := (readCoordinate_eq_ok_iff hlen).1 hx
    have hparity := decide_eq_decide.1 (odd_of_liftX hp hy)
    rw [compressed, ← hrest]
    congr 1
    obtain rfl | rfl := hoctet
    · rw [if_neg (mt hparity.2 (by decide))]
    · rw [if_pos (hparity.1 rfl)]
  · cases h

theorem eq_uncompressed_of_decodeUncompressed (hlen : rest.length = 2 * E.coordinateLength)
    (h : E.decodeUncompressed octet rest = .ok P) : octet :: rest = E.uncompressed P := by
  unfold decodeUncompressed at h
  split at h
  · rename_i hoctet
    obtain ⟨x, hx, h⟩ := bind_eq_ok_iff.1 h
    obtain ⟨y, hy, h⟩ := bind_eq_ok_iff.1 h
    split at h
    · cases h
      obtain ⟨-, htake⟩ := (readCoordinate_eq_ok_iff (by rw [List.length_take]; omega)).1 hx
      obtain ⟨-, hdrop⟩ := (readCoordinate_eq_ok_iff (by rw [List.length_drop]; omega)).1 hy
      rw [uncompressed, ← htake, ← hdrop, List.cons_append, List.take_append_drop, hoctet]
    · cases h
  · cases h

theorem eq_of_decode (hp : E.modulus % 2 = 1) (h : E.decode octets = .ok P) :
    octets = E.compressed P ∨ octets = E.uncompressed P := by
  unfold decode at h
  split at h
  · rename_i hzero
    cases h
    exact .inl hzero
  · rw [if_neg (by omega)] at h
    split at h
    · split at h
      · rename_i hlen
        exact .inl (eq_compressed_of_decodeCompressed hp hlen h)
      · split at h
        · rename_i hlen
          exact .inr (eq_uncompressed_of_decodeUncompressed hlen h)
        · cases h
    · cases h

theorem decode_cons (hp : E.modulus % 2 = 1) (hrest : 0 < rest.length) :
    E.decode (octet :: rest) =
      if rest.length = E.coordinateLength then E.decodeCompressed octet rest
      else if rest.length = 2 * E.coordinateLength then E.decodeUncompressed octet rest
      else .error (decode.lengthError E (octet :: rest).length) := by
  have hne : octet :: rest ≠ [0x00] := by
    intro h
    rw [(List.cons.inj h).2] at hrest
    exact hrest.ne rfl
  rw [decode, if_neg hne, if_neg (by omega)]

theorem decode_uncompressed (hp : E.modulus % 2 = 1) (h : E.HasPoint P) :
    E.decode (E.uncompressed P) = .ok P := by
  cases P with
  | infinity => rfl
  | affine x y =>
    obtain ⟨hx, hy, heq⟩ := h
    have hpos : 0 < E.coordinateLength := coordinateLength_pos (by omega)
    have hlen : (Bytes.ofNatPadded E.coordinateLength x ++
        Bytes.ofNatPadded E.coordinateLength y).length = 2 * E.coordinateLength := by
      rw [List.length_append, Bytes.length_ofNatPadded, Bytes.length_ofNatPadded]
      omega
    have hreadX := (readCoordinate_eq_ok_iff (Bytes.length_ofNatPadded _ x)).2 ⟨hx, rfl⟩
    have hreadY := (readCoordinate_eq_ok_iff (Bytes.length_ofNatPadded _ y)).2 ⟨hy, rfl⟩
    rw [uncompressed, List.cons_append, decode_cons hp (by omega), if_neg (by omega), if_pos hlen,
      decodeUncompressed, if_pos rfl, List.take_left' (Bytes.length_ofNatPadded _ x),
      List.drop_left' (Bytes.length_ofNatPadded _ x), hreadX, ok_bind, hreadY, ok_bind, if_pos heq]
    rfl

theorem decode_compressed [Fact E.modulus.Prime] (hp : E.modulus % 2 = 1) (h : E.HasPoint P) :
    E.decode (E.compressed P) = .ok P := by
  cases P with
  | infinity => rfl
  | affine x y =>
    have hpos : 0 < E.coordinateLength := coordinateLength_pos (by omega)
    have hlen := Bytes.length_ofNatPadded E.coordinateLength x
    have hread := (readCoordinate_eq_ok_iff hlen).2 ⟨h.1, rfl⟩
    rw [compressed, decode_cons hp (by omega), if_pos hlen, decodeCompressed]
    by_cases hparity : y % 2 = 1
    · have hlift : E.liftX 0x03 (decide (y % 2 = 1)) x = .ok y := liftX_of_contains hp h
      rw [decide_eq_true hparity] at hlift
      simp [if_pos hparity, hread, hlift]
    · have hlift : E.liftX 0x02 (decide (y % 2 = 1)) x = .ok y := liftX_of_contains hp h
      rw [decide_eq_false hparity] at hlift
      simp [if_neg hparity, hread, hlift]

end SigScript.Curve

namespace SigScript

/-- On every domain the octets that decode to a point are one of its two encodings, the uncompressed
encoding decodes to the point, and modulo a prime the compressed one does as well. -/
theorem point_octets_are_canonical {d : Domain} (hd : d.Accepted) :
    (∀ octets P, CurvePoint.ofOctets d octets = .ok P →
      P.LiesOn d ∧ (octets = P.toOctets ∨ octets = P.toUncompressedOctets)) ∧
    (∀ P : CurvePoint, P.LiesOn d → CurvePoint.ofOctets d P.toUncompressedOctets = .ok P) ∧
    (d.modulus.Prime →
      ∀ P : CurvePoint, P.LiesOn d → CurvePoint.ofOctets d P.toOctets = .ok P) := by
  refine ⟨?_, ?_, ?_⟩
  · intro octets P h
    refine ⟨CurvePoint.liesOn_ofOctets h, ?_⟩
    obtain ⟨C, hC, rfl⟩ := map_eq_ok_iff.1 h
    exact Curve.eq_of_decode hd.odd hC
  · rintro ⟨_, C⟩ ⟨rfl, hC⟩
    exact map_eq_ok_iff.2 ⟨C, Curve.decode_uncompressed hd.odd hC, rfl⟩
  · rintro hprime ⟨_, C⟩ ⟨rfl, hC⟩
    have : Fact (Nat.Prime _) := ⟨hprime⟩
    exact map_eq_ok_iff.2 ⟨C, Curve.decode_compressed hd.odd hC, rfl⟩

/-- The point `(1, 2)` is on the curve modulo 3, so its encodings `02 01` and `04 01 02` decode to it
and nothing else does. -/
theorem point_octets_are_canonical_sevenPoints :
    CurvePoint.ofOctets .sevenPoints [0x02, 0x01] = .ok ⟨.sevenPoints, .affine 1 2⟩ ∧
    CurvePoint.ofOctets .sevenPoints [0x04, 0x01, 0x02] = .ok ⟨.sevenPoints, .affine 1 2⟩ ∧
    ∀ octets, CurvePoint.ofOctets .sevenPoints octets = .ok ⟨.sevenPoints, .affine 1 2⟩ →
      octets = [0x02, 0x01] ∨ octets = [0x04, 0x01, 0x02] := by
  have h := point_octets_are_canonical (show Domain.sevenPoints.Accepted by decide)
  refine ⟨?_, ?_, ?_⟩
  · exact h.2.2 Nat.prime_three ⟨.sevenPoints, .affine 1 2⟩ (by decide)
  · exact h.2.1 ⟨.sevenPoints, .affine 1 2⟩ (by decide)
  · intro octets hoctets
    exact (h.1 octets _ hoctets).2

end SigScript
