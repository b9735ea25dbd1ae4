import Mathlib
import SigScript.Text.Blank
import SigScript.Text.IntegerLiteral

/-!
# Reading numerals back

The numeral of an integer is read as that integer (`integer?_renderInt`), and it has no blanks
(`not_isBlank_of_mem_renderInt`).  Both come down to single digits: the character of a digit has the
digit as its value (`digitValue?_digitChar`), while signs, underscores and blanks have no value.
-/

namespace SigScript

namespace Numeral

variable {base d n : Nat} {c c' : Char}

/-! ### Digits -/

theorem digitsOnto_ne_nil (base n : Nat) (rest : List Nat) : digitsOnto base n rest ≠ [] := by
  fun_induction digitsOnto base n rest with
  | case1 => simp
  | case2 n rest _ ih => exact ih

theorem lt_of_mem_digitsOnto (hbase : 2 ≤ base) {rest : List Nat} (hrest : ∀ d ∈ rest, d < base) :
    ∀ d ∈ digitsOnto base n rest, d < base := by
  fun_induction digitsOnto base n rest with
  | case1 n rest h =>
    rintro d (_ | ⟨_, hd⟩)
    · omega
    · exact hrest d hd
  | case2 n rest _ ih =>
    apply ih
    rintro d (_ | ⟨_, hd⟩)
    · exact Nat.mod_lt n (by omega)
    · exact hrest d hd

theorem digits_ne_nil (base n : Nat) : digits base n ≠ [] := digitsOnto_ne_nil base n []

theorem lt_of_mem_digits (hbase : 2 ≤ base) : ∀ d ∈ digits base n, d < base :=
  lt_of_mem_digitsOnto hbase (by simp)

/-! ### Characters of digits -/

theorem digitValue?_digitChar (hbase : base ≤ 36) (hd : d < base) :
    digitValue? base (digitChar d) = some d := by
  have hchar : ∀ d : Fin 36,
      (d.val < 10 ∧ '0' ≤ digitChar d ∧ digitChar d ≤ '9' ∧ (digitChar d).toNat = 48 + d) ∨
        (¬digitChar d ≤ '9' ∧ 'a' ≤ digitChar d ∧ digitChar d ≤ 'z' ∧
          (digitChar d).toNat = 87 + d) := by decide
  obtain ⟨_, hlow, hhigh, hvalue⟩ | ⟨hnine, hlow, hhigh, hvalue⟩ := hchar ⟨d, by omega⟩
  · simp only at hlow hhigh hvalue
    simp [digitValue?, hlow, hhigh, hvalue, hd]
  · simp only at hnine hlow hhigh hvalue
    simp [digitValue?, hnine, hlow, hhigh, hvalue, hd]

@[simp] theorem digitValue?_underscore (base : Nat) : digitValue? base '_' = none := by
  simp [digitValue?]

@[simp] theorem digitValue?_minus (base : Nat) : digitValue? base '-' = none := by
  simp [digitValue?]

@[simp] theorem digitValue?_plus (base : Nat) : digitValue? base '+' = none := by
  simp [digitValue?]

/-- Only the ASCII digits and letters are digits of a base. -/
theorem digitValue?_eq_none (hnine : ¬(48 ≤ c.toNat ∧ c.toNat ≤ 57))
    (hsmall : ¬(97 ≤ c.toNat ∧ c.toNat ≤ 122)) (hlarge : ¬(65 ≤ c.toNat ∧ c.toNat ≤ 90)) :
    digitValue? base c = none := by
  have hle : ∀ {a b : Char}, a ≤ b ↔ a.toNat ≤ b.toNat := Char.le_def.trans UInt32.le_iff_toNat_le
  simp only [digitValue?, hle, Char.reduceToNat]
  rw [if_neg hnine, if_neg hsmall, if_neg hlarge, if_neg (lt_irrefl base)]

theorem digitValue?_of_isBlank (h : Text.isBlank c) : digitValue? base c = none := by
  simp [Text.isBlank, Text.blankRanges] at h
  exact digitValue?_eq_none (by omega) (by omega) (by omega)

theorem ne_of_digitValue? (h : digitValue? base c = some d) (h' : digitValue? base c' = none) :
    c ≠ c' := by
  rintro rfl
  rw [h] at h'
  cases h'

/-! ### Loose numerals -/

theorem looseDigits?_cons (hc : c ≠ '_') (cs : List Char) :
    looseDigits? base (c :: cs) =
      (((c :: cs).filter (· ≠ '_')).mapM (digitValue? base)).map (value base) := by
  rw [looseDigits?]
  · exact nofun
  · rintro _ ⟨⟩
    exact hc rfl

theorem dropSign_cons {sign : Char} {cs : List Char} (h : cs.head? ≠ some '+') :
    dropSign sign (sign :: cs) = cs :=
  if_pos ⟨rfl, h⟩

theorem dropSign_of_head?_ne {sign : Char} {cs : List Char} (h : cs.head? ≠ some sign) :
    dropSign sign cs = cs :=
  if_neg fun hsign => h hsign.1

end Numeral

namespace IntegerLiteral

open Numeral

variable {base : Nat} {c c' : Char} {cs : List Char}

/-! ### Numerals -/

theorem digits?_cons_cons (hc' : c' ≠ '_') :
    digits? base (c :: c' :: cs) = (do
      let d ← digitValue? base c
      let ds ← digits? base (c' :: cs)
      return d :: ds) := by
  rw [digits?]
  · simp
  · rintro rest h
    exact hc' (List.cons.inj h).1

theorem digits?_cons_of_none (h : digitValue? base c = none) (cs : List Char) :
    digits? base (c :: cs) = none := by
  rcases cs with _ | ⟨c', cs⟩
  · simp [digits?, h]
  · by_cases hc' : c' = '_'
    · simp [hc', digits?, h]
    · simp [digits?_cons_cons hc', h]

/-- Without underscores a numeral is the characters of its digits. -/
theorem digits?_map_digitChar (hbase : base ≤ 36) {ds : List Nat} (hne : ds ≠ [])
    (hds : ∀ d ∈ ds, d < base) : digits? base (ds.map digitChar) = some ds := by
  have hvalue : ∀ d ∈ ds, digitValue? base (digitChar d) = some d :=
    fun d hd => digitValue?_digitChar hbase (hds d hd)
  induction ds with
  | nil => exact absurd rfl hne
  | cons d ds ih =>
    have hd := hvalue d (by simp)
    rcases ds with _ | ⟨e, ds⟩
    · simp [digits?, hd]
    · have he : digitChar e ≠ '_' := ne_of_digitValue? (hvalue e (by simp)) (by simp)
      have hrest := ih (by simp) (fun d hd => hds d (List.mem_cons_of_mem _ hd))
        fun d hd => hvalue d (List.mem_cons_of_mem _ hd)
      rw [List.map_cons] at hrest
      rw [List.map_cons, List.map_cons, digits?_cons_cons he, hd, hrest]
      rfl

theorem natural?_render (hbase : 2 ≤ base) (hmax : base ≤ 36) (n : Nat) :
    natural? base (render base n) = some n := by
  rw [natural?, render,
    digits?_map_digitChar hmax (digits_ne_nil base n) (lt_of_mem_digits hbase),
    Option.map_some, value_digits]

/-! ### Integers -/

theorem integer?_of_ne (hminus : c ≠ '-') (hplus : c ≠ '+') :
    integer? base (c :: cs) = (natural? base (c :: cs)).map Int.ofNat := by
  rw [integer?]
  · rintro rest h
    exact hminus (List.cons.inj h).1
  · rintro rest h
    exact hplus (List.cons.inj h).1

theorem integer?_cons_of_none (h : digitValue? base c = none) (hminus : c ≠ '-') (hplus : c ≠ '+')
    (cs : List Char) : integer? base (c :: cs) = none := by
  rw [integer?_of_ne hminus hplus, natural?, digits?_cons_of_none h]
  rfl

theorem integer?_renderInt (hbase : 2 ≤ base) (hmax : base ≤ 36) (z : Int) :
    integer? base (renderInt base z) = some z := by
  have hnatural := natural?_render hbase hmax z.natAbs
  unfold renderInt
  split
  · have habs : -(z.natAbs : Int) = z := by omega
    rw [integer?, hnatural]
    exact congrArg some habs
  · obtain ⟨d, ds, hds⟩ := List.exists_cons_of_ne_nil (digits_ne_nil base z.natAbs)
    have hmem : d ∈ digits base z.natAbs := by simp [hds]
    have hd := digitValue?_digitChar hmax (lt_of_mem_digits hbase d hmem)
    have hrender : render base z.natAbs = digitChar d :: ds.map digitChar := by simp [render, hds]
    rw [hrender] at hnatural ⊢
    have habs : (z.natAbs : Int) = z := by omega
    rw [integer?_of_ne (ne_of_digitValue? hd (by simp)) (ne_of_digitValue? hd (by simp)), hnatural]
    simp [habs]

end IntegerLiteral

namespace Numeral

theorem renderInt_ne_nil (base : Nat) (z : Int) : renderInt base z ≠ [] := by
  unfold renderInt render
  split <;> simp [digits_ne_nil]

theorem not_isBlank_of_mem_renderInt {base : Nat} (hbase : 2 ≤ base) (hmax : base ≤ 36) (z : Int) :
    ∀ c ∈ renderInt base z, ¬Text.isBlank c := by
  have hrender : ∀ c ∈ render base z.natAbs, ¬Text.isBlank c := by
    intro c hc hblank
    obtain ⟨d, hd, rfl⟩ := List.mem_map.1 hc
    have hvalue := digitValue?_digitChar hmax (lt_of_mem_digits hbase d hd)
    exact ne_of_digitValue? hvalue (digitValue?_of_isBlank hblank) rfl
  unfold renderInt
  split
  · rintro c (_ | ⟨_, hc⟩)
    · decide
    · exact hrender c hc
  · exact hrender

end Numeral

end SigScript
