import Mathlib
import SigScript.Text.Base64

/-!
# One base64 text for each byte string

A character with a value is the character of that value (`digitValue?_eq_some_iff`).  Pads and the
bits that they cut off are fixed, so the text that is read as a byte string is the one that is written
for it (`decode?_eq_some_iff`).
-/

namespace SigScript.Base64

variable {c : Char} {v : Nat} {cs : List Char} {octets : Bytes}

theorem digitChar_of_digitValue? (h : digitValue? c = some v) : v < 64 ∧ digitChar v = c := by
  have hle : ∀ {a b : Char}, a ≤ b ↔ a.toNat ≤ b.toNat := Char.le_def.trans UInt32.le_iff_toNat_le
  have hchar : ∀ n, n = c.toNat → Char.ofNat n = c := by
    rintro _ rfl
    exact Char.ofNat_toNat c
  unfold digitValue? at h
  simp only [hle, Char.reduceToNat] at h
  unfold digitChar
  split_ifs at h with hupper hlower hdigit hplus hslash
  · cases h
    rw [if_pos (by omega)]
    exact ⟨by omega, hchar _ (by omega)⟩
  · cases h
    rw [if_neg (by omega), if_pos (by omega)]
    exact ⟨by omega, hchar _ (by omega)⟩
  · cases h
    rw [if_neg (by omega), if_neg (by omega), if_pos (by omega)]
    exact ⟨by omega, hchar _ (by omega)⟩
  · cases h
    exact ⟨by decide, hplus.symm⟩
  · cases h
    exact ⟨by decide, hslash.symm⟩

theorem digitValue?_eq_some_iff : digitValue? c = some v ↔ v < 64 ∧ digitChar v = c := by
  refine ⟨digitChar_of_digitValue?, ?_⟩
  rintro ⟨hv, rfl⟩
  exact digitValue?_digitChar hv

/-- What a text is read as depends on the values of its characters. -/
theorem digitValue?_bind_eq_some_iff {f : Nat → Option Bytes} :
    (digitValue? c >>= f) = some octets ↔ ∃ v < 64, digitChar v = c ∧ f v = some octets := by
  simp only [Option.bind_eq_bind, Option.bind_eq_some_iff, digitValue?_eq_some_iff, and_assoc]

theorem eq_encode_of_decode? (h : decode? cs = some octets) : cs = encode octets := by
  have hsize : UInt8.size = 256 := rfl
  -- The parts of a character's value that went into two octets add up to the value again.
  fun_induction decode? cs generalizing octets with
  | case1 =>
    cases h
    rfl
  | case2 =>
    simp only [digitValue?_bind_eq_some_iff] at h
    obtain ⟨w, hw, rfl, x, hx, rfl, h⟩ := h
    split_ifs at h with hzero
    cases h
    have hfirst : (w * 4 + x / 16) / 4 = w := by omega
    have hsecond : (w * 4 + x / 16) % 4 * 16 = x := by omega
    rw [encode, UInt8.toNat_ofNat_of_lt' (by omega), hfirst, hsecond]
  | case3 =>
    simp only [digitValue?_bind_eq_some_iff] at h
    obtain ⟨w, hw, rfl, x, hx, rfl, y, hy, rfl, h⟩ := h
    split_ifs at h with hzero
    cases h
    have hfirst : (w * 4 + x / 16) / 4 = w := by omega
    have hsecond : (w * 4 + x / 16) % 4 * 16 + (x % 16 * 16 + y / 4) / 16 = x := by omega
    have hthird : (x % 16 * 16 + y / 4) % 16 * 4 = y := by omega
    rw [encode, UInt8.toNat_ofNat_of_lt' (by omega), UInt8.toNat_ofNat_of_lt' (by omega), hfirst,
      hsecond, hthird]
  | case4 _ _ _ _ rest _ _ ih =>
    simp only [digitValue?_bind_eq_some_iff] at h
    obtain ⟨w, hw, rfl, x, hx, rfl, y, hy, rfl, z, hz, rfl, h⟩ := h
    obtain ⟨tail, htail, h⟩ := Option.bind_eq_some_iff.1 h
    cases h
    have hfirst : (w * 4 + x / 16) / 4 = w := by omega
    have hsecond : (w * 4 + x / 16) % 4 * 16 + (x % 16 * 16 + y / 4) / 16 = x := by omega
    have hthird : (x % 16 * 16 + y / 4) % 16 * 4 + (y % 4 * 64 + z) / 64 = y := by omega
    have hfourth : (y % 4 * 64 + z) % 64 = z := by omega
    rw [encode, UInt8.toNat_ofNat_of_lt' (by omega), UInt8.toNat_ofNat_of_lt' (by omega),
      UInt8.toNat_ofNat_of_lt' (by omega), hfirst, hsecond, hthird, hfourth, ih htail]
  | case5 => cases h

/-- A byte string is read from the text that is written for it, and from no other. -/
theorem decode?_eq_some_iff : decode? cs = some octets ↔ cs = encode octets := by
  refine ⟨eq_encode_of_decode?, ?_⟩
  rintro rfl
  exact decode?_encode octets

end SigScript.Base64
