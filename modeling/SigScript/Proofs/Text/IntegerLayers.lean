import Mathlib
import SigScript.Proofs.Text.Lines
import SigScript.Proofs.Text.Numeral

/-!
# Integer literals in layers

A literal can also be read in layers: its sign is taken off, the rest is cut at the underscores, every
group is checked to be digits, and then the whole literal without its underscores is given to a reader
of big integers, which looks at the sign once more.  That reader cannot see where the underscores
were, so they are left to the check; and behind the sign of a literal that passes it there is no other
sign (`head?_filter_of_grouped`).  So reading in layers and reading through the characters once give
the same integers (`layeredInteger?_eq`), whatever the base.
-/

namespace SigScript.IntegerLiteral

open Numeral

variable {base : Nat} {c c' : Char} {cs : List Char} {ds : List Nat}

/-! ### The layers -/

/-- A literal without its sign. -/
def unsigned : List Char → List Char
  | '-' :: cs => cs
  | '+' :: cs => cs
  | cs => cs

/-- Whether a group is at least one digit of the base and nothing else. -/
def allDigits (base : Nat) (group : List Char) : Bool :=
  !group.isEmpty && group.all fun c => (digitValue? base c).isSome

/-- Whether all groups between the underscores are digits. -/
def grouped (base : Nat) (cs : List Char) : Bool := (Text.pieces (· = '_') cs).all (allDigits base)

/-- The integer of a minus sign or none and what `looseNatural?` takes. -/
def looseInteger? (base : Nat) (cs : List Char) : Option Int :=
  (looseNatural? base (dropSign '-' cs)).map fun n : Nat =>
    if cs.head? = some '-' then -(n : Int) else n

/-- The integer of a literal, read in layers. -/
def layeredInteger? (base : Nat) (cs : List Char) : Option Int :=
  if grouped base (unsigned cs) then looseInteger? base (cs.filter (· ≠ '_')) else none

/-! ### The check of the groups -/

theorem grouped_nil (base : Nat) : grouped base [] = false := rfl

@[simp] theorem grouped_underscore (base : Nat) (cs : List Char) :
    grouped base ('_' :: cs) = false := rfl

theorem grouped_singleton : grouped base [c] = (digitValue? base c).isSome := by
  rcases eq_or_ne c '_' with rfl | hc
  · simp
  · simp [grouped, Text.pieces, allDigits, hc]

theorem grouped_cons_underscore :
    grouped base (c :: '_' :: cs) = ((digitValue? base c).isSome && grouped base cs) := by
  rcases eq_or_ne c '_' with rfl | hc
  · simp
  · simp [grouped, Text.pieces, allDigits, hc]

theorem grouped_cons_cons (hc' : c' ≠ '_') :
    grouped base (c :: c' :: cs) = ((digitValue? base c).isSome && grouped base (c' :: cs)) := by
  rcases eq_or_ne c '_' with rfl | hc
  · simp
  · obtain ⟨piece, more, hpieces⟩ := List.exists_cons_of_ne_nil (Text.pieces_ne_nil (· = '_') cs)
    have hrest := Text.pieces_cons_of_not (by simpa using hc') hpieces
    have hall := Text.pieces_cons_of_not (by simpa using hc) hrest
    simp [grouped, allDigits, hrest, hall, Bool.and_assoc]

/-- A numeral is read exactly when its groups are digits. -/
theorem isSome_digits? (base : Nat) (cs : List Char) :
    (digits? base cs).isSome = grouped base cs := by
  fun_induction digits? base cs with
  | case1 => rfl
  | case2 c => simp [grouped_singleton]
  | case3 c cs ih =>
    rw [grouped_cons_underscore, ← ih]
    cases digitValue? base c <;> cases digits? base cs <;> rfl
  | case4 c cs hnil hunderscore ih =>
    obtain ⟨c', cs, rfl⟩ := List.exists_cons_of_ne_nil hnil
    have hc' : c' ≠ '_' := fun h => hunderscore cs (by rw [h])
    rw [grouped_cons_cons hc', ← ih]
    cases digitValue? base c <;> cases digits? base (c' :: cs) <;> rfl

theorem grouped_of_digits? (h : digits? base cs = some ds) : grouped base cs := by
  rw [← isSome_digits?, h]
  rfl

/-! ### The reader of big integers -/

theorem filter_cons_of_digit {d : Nat} (h : digitValue? base c = some d) (cs : List Char) :
    (c :: cs).filter (· ≠ '_') = c :: cs.filter (· ≠ '_') :=
  List.filter_cons_of_pos (by simpa using ne_of_digitValue? h (digitValue?_underscore base))

/-- Without its underscores a numeral is its digits. -/
theorem mapM_digitValue?_of_digits? (h : digits? base cs = some ds) :
    (cs.filter (· ≠ '_')).mapM (digitValue? base) = some ds := by
  fun_induction digits? base cs generalizing ds with
  | case1 => cases h
  | case2 c =>
    obtain ⟨d, hd, rfl⟩ := Option.map_eq_some_iff.1 h
    rw [filter_cons_of_digit hd, List.filter_nil, List.mapM_cons, hd]
    rfl
  | case3 c cs ih =>
    obtain ⟨d, hd, h⟩ := Option.bind_eq_some_iff.1 h
    obtain ⟨ds', hds', h⟩ := Option.bind_eq_some_iff.1 h
    rw [filter_cons_of_digit hd, List.filter_cons_of_neg (by simp), List.mapM_cons, hd, ih hds']
    exact h
  | case4 c cs _ _ ih =>
    obtain ⟨d, hd, h⟩ := Option.bind_eq_some_iff.1 h
    obtain ⟨ds', hds', h⟩ := Option.bind_eq_some_iff.1 h
    rw [filter_cons_of_digit hd, List.mapM_cons, hd, ih hds']
    exact h

/-- A numeral starts with a digit. -/
theorem exists_digit_of_grouped (h : grouped base cs) :
    ∃ c rest d, cs = c :: rest ∧ digitValue? base c = some d := by
  cases cs with
  | nil =>
    rw [grouped_nil] at h
    cases h
  | cons c rest =>
    cases hd : digitValue? base c with
    | none =>
      rw [← isSome_digits?, digits?_cons_of_none hd] at h
      cases h
    | some d => exact ⟨c, rest, d, rfl, hd⟩

/-- So no sign stands in front of it, with or without its underscores. -/
theorem head?_filter_of_grouped (h : grouped base cs) (hc : digitValue? base c = none) :
    (cs.filter (· ≠ '_')).head? ≠ some c := by
  obtain ⟨c', rest, d, rfl, hd⟩ := exists_digit_of_grouped h
  rw [filter_cons_of_digit hd, List.head?_cons, ne_eq, Option.some.injEq]
  exact ne_of_digitValue? hd hc

theorem looseDigits?_of_digits? (h : digits? base cs = some ds) :
    looseDigits? base (cs.filter (· ≠ '_')) = some (value base ds) := by
  have hmap := mapM_digitValue?_of_digits? h
  obtain ⟨c, rest, d, rfl, hd⟩ := exists_digit_of_grouped (grouped_of_digits? h)
  have hc := ne_of_digitValue? hd (digitValue?_underscore base)
  rw [filter_cons_of_digit hd] at hmap ⊢
  rw [looseDigits?_cons hc, filter_cons_of_digit hd, List.filter_filter]
  simp only [Bool.and_self, hmap, Option.map_some]

/-- A numeral passes the check, and its natural number is the one that the other reader finds. -/
theorem natural?_eq (base : Nat) (cs : List Char) :
    natural? base cs =
      if grouped base cs then looseNatural? base (cs.filter (· ≠ '_')) else none := by
  cases hds : digits? base cs with
  | none =>
    rw [natural?, ← isSome_digits?, hds]
    rfl
  | some ds =>
    have hcheck := grouped_of_digits? hds
    have hplus := head?_filter_of_grouped hcheck (digitValue?_plus base)
    rw [natural?, hds, if_pos hcheck, looseNatural?, dropSign_of_head?_ne hplus,
      looseDigits?_of_digits? hds]
    rfl

/-! ### Signs -/

theorem looseNatural?_plus (h : cs.head? ≠ some '+') :
    looseNatural? base ('+' :: cs) = looseNatural? base cs := by
  rw [looseNatural?, looseNatural?, dropSign_cons h, dropSign_of_head?_ne h]

theorem looseInteger?_minus (h : cs.head? ≠ some '+') :
    looseInteger? base ('-' :: cs) = (looseNatural? base cs).map fun n : Nat => -(n : Int) := by
  rw [looseInteger?, dropSign_cons h]
  rfl

theorem looseInteger?_of_head?_ne (h : cs.head? ≠ some '-') :
    looseInteger? base cs = (looseNatural? base cs).map Int.ofNat := by
  rw [looseInteger?, dropSign_of_head?_ne h]
  simp only [if_neg h]
  rfl

/-- Reading a literal in layers gives the integer that reading it once gives. -/
theorem layeredInteger?_eq (base : Nat) (cs : List Char) :
    layeredInteger? base cs = integer? base cs := by
  unfold layeredInteger?
  fun_cases unsigned cs with
  | case1 cs =>
    rw [integer?, natural?_eq]
    split_ifs with h
    · rw [List.filter_cons_of_pos (by decide),
        looseInteger?_minus (head?_filter_of_grouped h (digitValue?_plus base))]
    · rfl
  | case2 cs =>
    rw [integer?, natural?_eq]
    split_ifs with h
    · rw [List.filter_cons_of_pos (by decide), looseInteger?_of_head?_ne (by simp),
        looseNatural?_plus (head?_filter_of_grouped h (digitValue?_plus base))]
    · rfl
  | case3 cs hminus hplus =>
    rw [integer?, natural?_eq]
    · split_ifs with h
      · rw [looseInteger?_of_head?_ne (head?_filter_of_grouped h (digitValue?_minus base))]
      · rfl
    · exact hminus
    · exact hplus

-- Two underscores in a row do not get past the check.
example : layeredInteger? 10 ['1', '_', '_', '0'] = none ∧ looseInteger? 10 ['1', '0'] = some 10 := by
  decide +kernel

end SigScript.IntegerLiteral
