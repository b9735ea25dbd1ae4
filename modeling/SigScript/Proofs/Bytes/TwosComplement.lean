import Mathlib
import SigScript.Bytes.Lemmas

/-!
# Two's complement

The forms of `k + 1` bytes stand for the integers from `-128 * 256 ^ k` up to `128 * 256 ^ k`, each
for one of them (`ofIntPadded_toInt`, `toInt_ofIntPadded`), and `signedLength` is the least number of
bytes that is enough (`signedLength_le_iff`).  A form is shorter than it could be unless its first
byte only repeats the sign of its second (`Redundant`), so the shortest forms are those without such
a byte (`eq_ofInt_iff`).
-/

namespace SigScript.Bytes

/-- The integers that forms of `k + 1` bytes stand for. -/
def InSignedRange (k : Nat) (z : Int) : Prop := -(128 * 256 ^ k) ≤ z ∧ z < 128 * 256 ^ k

/-- The first byte repeats the sign of the second. -/
def Redundant (first second : UInt8) : Prop :=
  (first = 0x00 ∧ second < 0x80) ∨ (first = 0xff ∧ 0x80 ≤ second)

instance (first second : UInt8) : Decidable (Redundant first second) :=
  inferInstanceAs (Decidable (_ ∨ _))

/-! ### The value of a form -/

theorem foldl_eq (z : Int) (bs : Bytes) :
    bs.foldl (fun z b => z * 256 + (b.toNat : Int)) z = z * 256 ^ bs.length + toNat bs := by
  induction bs using List.reverseRecOn with
  | nil => simp [toNat]
  | append_singleton bs b ih =>
    rw [List.foldl_append, ih, toNat_append, List.length_append, List.length_singleton]
    simp only [List.foldl_cons, List.foldl_nil]
    push_cast
    ring

theorem toInt_cons (first : UInt8) (rest : Bytes) :
    toInt (first :: rest) = signedByte first * 256 ^ rest.length + toNat rest := foldl_eq _ _

theorem toInt_append {bs : Bytes} (hbs : bs ≠ []) (b : UInt8) :
    toInt (bs ++ [b]) = toInt bs * 256 + b.toNat := by
  cases bs with
  | nil => exact absurd rfl hbs
  | cons first rest => simp [toInt]

theorem signedByte_range (b : UInt8) : -128 ≤ signedByte b ∧ signedByte b < 128 := by
  have hb := b.toNat_lt
  have h80 : (0x80 : UInt8).toNat = 128 := rfl
  rw [signedByte]
  simp only [UInt8.lt_iff_toNat_lt, h80]
  split <;> omega

theorem signedByte_emod (b : UInt8) : signedByte b % 256 = b.toNat := by
  have hb := b.toNat_lt
  unfold signedByte
  split <;> omega

/-- Written in its own width, the value of a form is the form again. -/
theorem ofIntPadded_toInt {bs : Bytes} (hbs : bs ≠ []) : ofIntPadded bs.length (toInt bs) = bs := by
  induction bs using List.reverseRecOn with
  | nil => exact absurd rfl hbs
  | append_singleton bs b ih =>
    have hb := b.toNat_lt
    rw [List.length_append, List.length_singleton, ofIntPadded]
    by_cases hnil : bs = []
    · subst hnil
      have hvalue : toInt ([] ++ [b]) % 256 = b.toNat := signedByte_emod b
      rw [hvalue, Int.toNat_natCast, UInt8.ofNat_toNat]
      rfl
    · have hdiv : (toInt bs * 256 + b.toNat) / 256 = toInt bs := by omega
      have hmod : (toInt bs * 256 + b.toNat) % 256 = b.toNat := by omega
      rw [toInt_append hnil, hdiv, hmod, ih hnil, Int.toNat_natCast, UInt8.ofNat_toNat]

/-! ### Widths that are enough -/

/-- Bytes behind a number do not matter for whether the number fits into one byte. -/
theorem inSignedRange_iff (z : Int) (bs : Bytes) :
    InSignedRange bs.length (z * 256 ^ bs.length + toNat bs) ↔ -128 ≤ z ∧ z < 128 := by
  have hpos : (0 : Int) < 256 ^ bs.length := by positivity
  have hlt : (toNat bs : Int) < 256 ^ bs.length := by exact_mod_cast toNat_lt bs
  have hdiv : (z * 256 ^ bs.length + toNat bs) / 256 ^ bs.length = z := by
    rw [Int.add_comm, Int.add_mul_ediv_right _ _ hpos.ne', Int.ediv_eq_zero_of_lt (by omega) hlt,
      zero_add]
  have hlow : -128 ≤ z ↔ -128 * 256 ^ bs.length ≤ z * 256 ^ bs.length + toNat bs := by
    rw [← Int.le_ediv_iff_mul_le hpos, hdiv]
  have hhigh : z < 128 ↔ z * 256 ^ bs.length + toNat bs < 128 * 256 ^ bs.length := by
    rw [← Int.ediv_lt_iff_lt_mul hpos, hdiv]
  rw [InSignedRange, hlow, hhigh, Int.neg_mul]

theorem inSignedRange_toInt (first : UInt8) (rest : Bytes) :
    InSignedRange rest.length (toInt (first :: rest)) := by
  rw [toInt_cons]
  exact (inSignedRange_iff _ _).2 (signedByte_range first)

theorem toNat_ofNat_emod (z : Int) :
    (UInt8.ofNat (z % 256).toNat).toNat = (z % 256).toNat :=
  UInt8.toNat_ofNat_of_lt' (show (z % 256).toNat < 256 by omega)

theorem toInt_ofIntPadded {k : Nat} {z : Int} (h : InSignedRange k z) :
    toInt (ofIntPadded (k + 1) z) = z := by
  induction k generalizing z with
  | zero =>
    obtain ⟨hlow, hhigh⟩ := h
    have hbyte := toNat_ofNat_emod z
    have hcases : toInt (ofIntPadded 1 z) = signedByte (UInt8.ofNat (z % 256).toNat) := rfl
    rw [hcases, signedByte]
    simp only [UInt8.lt_iff_toNat_lt, hbyte]
    have : (0x80 : UInt8).toNat = 128 := rfl
    simp only [pow_zero] at hlow hhigh
    split <;> omega
  | succ k ih =>
    have hne : ofIntPadded (k + 1) (z / 256) ≠ [] := by simp [ofIntPadded]
    have hrange : InSignedRange k (z / 256) := by
      obtain ⟨hlow, hhigh⟩ := h
      rw [pow_succ] at hlow hhigh
      constructor <;> omega
    have hbyte := toNat_ofNat_emod z
    rw [ofIntPadded, toInt_append hne, ih hrange, hbyte]
    omega

theorem signedLength_le_iff {k : Nat} {z : Int} : signedLength z ≤ k + 1 ↔ InSignedRange k z := by
  have hbits : ∀ m : Nat, Binary.bitLength m / 8 + 1 ≤ k + 1 ↔ m < 128 * 256 ^ k := by
    intro m
    have hpow : 128 * 256 ^ k = 2 ^ (8 * k + 7) := by
      rw [pow_add, pow_mul]
      norm_num [mul_comm]
    rw [hpow, ← Binary.bitLength_le_iff]
    omega
  have hcast : ((128 * 256 ^ k : Nat) : Int) = 128 * 256 ^ k := by push_cast; rfl
  rw [signedLength, hbits, InSignedRange, ← hcast]
  split <;> omega

/-! ### The shortest form -/

theorem redundant_iff (first second : UInt8) :
    Redundant first second ↔
      -128 ≤ signedByte first * 256 + second.toNat ∧ signedByte first * 256 + second.toNat < 128 := by
  have hsecond := second.toNat_lt
  have hfirst := first.toNat_lt
  have h80 : (0x80 : UInt8).toNat = 128 := rfl
  have h00 : (0x00 : UInt8).toNat = 0 := rfl
  have hff : (0xff : UInt8).toNat = 255 := rfl
  rw [Redundant, signedByte]
  simp only [UInt8.lt_iff_toNat_lt, UInt8.le_iff_toNat_le, ← UInt8.toNat_inj, h80, h00, hff]
  split <;> omega

/-- A first byte can be left out when it is redundant. -/
theorem redundant_iff_inSignedRange (first second : UInt8) (rest : Bytes) :
    Redundant first second ↔ InSignedRange rest.length (toInt (first :: second :: rest)) := by
  have hvalue : toInt (first :: second :: rest) =
      (signedByte first * 256 + second.toNat) * 256 ^ rest.length + toNat rest :=
    foldl_eq (signedByte first * 256 + second.toNat) rest
  rw [hvalue, inSignedRange_iff, redundant_iff]

theorem ofInt_ne_nil (z : Int) : ofInt z ≠ [] := by
  simp [ofInt, signedLength, ofIntPadded]

theorem length_ofIntPadded (width : Nat) (z : Int) : (ofIntPadded width z).length = width := by
  induction width generalizing z with
  | zero => rfl
  | succ width ih => simp [ofIntPadded, ih]

theorem toInt_ofInt (z : Int) : toInt (ofInt z) = z :=
  toInt_ofIntPadded (signedLength_le_iff.1 le_rfl)

/-- A form of one byte, or one without a redundant first byte, is the shortest of its value. -/
theorem eq_ofInt_iff {bs : Bytes} {z : Int} :
    bs = ofInt z ↔ toInt bs = z ∧
      ∃ first rest, bs = first :: rest ∧ ∀ second more, rest = second :: more →
        ¬Redundant first second := by
  constructor
  · rintro rfl
    refine ⟨toInt_ofInt z, ?_⟩
    have hvalue := toInt_ofInt z
    have hlength : (ofInt z).length = signedLength z := length_ofIntPadded _ _
    cases hz : ofInt z with
    | nil => exact absurd hz (ofInt_ne_nil z)
    | cons first rest =>
      refine ⟨first, rest, rfl, ?_⟩
      rintro second more rfl hred
      rw [hz] at hvalue hlength
      rw [redundant_iff_inSignedRange first second more, hvalue] at hred
      have hle := signedLength_le_iff.2 hred
      simp only [List.length_cons] at hlength
      omega
  · rintro ⟨rfl, first, rest, rfl, hred⟩
    have hle : signedLength (toInt (first :: rest)) ≤ rest.length + 1 :=
      signedLength_le_iff.2 (inSignedRange_toInt first rest)
    have hge : rest.length + 1 ≤ signedLength (toInt (first :: rest)) := by
      cases rest with
      | nil => simp [signedLength]
      | cons second more =>
        by_contra hlt
        have hshort : signedLength (toInt (first :: second :: more)) ≤ more.length + 1 := by
          simp only [List.length_cons] at hlt
          omega
        rw [signedLength_le_iff, ← redundant_iff_inSignedRange] at hshort
        exact hred second more rfl hshort
    have hlength : signedLength (toInt (first :: rest)) = (first :: rest).length :=
      le_antisymm hle hge
    rw [ofInt, hlength]
    exact (ofIntPadded_toInt (List.cons_ne_nil first rest)).symm

end SigScript.Bytes
