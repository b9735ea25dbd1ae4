import Mathlib
import SigScript.Proofs.Text.Numeral

/-!
# The grammar of integer literals

What is read as an integer in a base is exactly a sign or none and groups of digits with single
underscores between them, and the integer is the positional value of all digits
(`integer?_eq_some_iff`).  The reader works through the characters from the front; the grammar speaks
of groups.  A group is read to its end by `digits?_of_isGroup` and `digits?_append_underscore`.
-/

namespace SigScript

/-! ### Digits -/

namespace Numeral

variable {base d : Nat} {c : Char}

/-- The characters of the digits below 16. -/
def lowerDigits : List Char :=
  ['0', '1', '2', '3', '4', '5', '6', '7', '8', '9', 'a', 'b', 'c', 'd', 'e', 'f']

/-- The characters of the digits below 16, with letters in upper case. -/
def upperDigits : List Char :=
  ['0', '1', '2', '3', '4', '5', '6', '7', '8', '9', 'A', 'B', 'C', 'D', 'E', 'F']

/-- The character is the digit `d` of the base, which is at most 16. -/
def IsDigit (base : Nat) (c : Char) (d : Nat) : Prop :=
  d < base ∧ (lowerDigits[d]? = some c ∨ upperDigits[d]? = some c)

instance (base : Nat) (c : Char) (d : Nat) : Decidable (IsDigit base c d) :=
  inferInstanceAs (Decidable (_ ∧ _))

theorem isDigit_of_digitValue? (hbase : base ≤ 16) (h : digitValue? base c = some d) :
    IsDigit base c d := by
  have hle : ∀ {a b : Char}, a ≤ b ↔ a.toNat ≤ b.toNat := Char.le_def.trans UInt32.le_iff_toNat_le
  have hdecimal : ∀ k < 10, lowerDigits[k]? = some (Char.ofNat (k + 48)) := by decide
  have hlower : ∀ k < 6, lowerDigits[k + 10]? = some (Char.ofNat (k + 97)) := by decide
  have hupper : ∀ k < 6, upperDigits[k + 10]? = some (Char.ofNat (k + 65)) := by decide
  have hchar : ∀ {n}, n = c.toNat → Char.ofNat n = c := by
    rintro _ rfl
    exact Char.ofNat_toNat c
  simp only [digitValue?, hle, Char.reduceToNat, Option.ite_none_right_eq_some,
    Option.some.injEq] at h
  obtain ⟨hlt, rfl⟩ := h
  refine ⟨hlt, ?_⟩
  split_ifs at hlt ⊢ with hnine hsmall hlarge
  · left
    rw [hdecimal _ (by omega), hchar (by omega)]
  · left
    obtain ⟨k, hk⟩ := Nat.exists_eq_add_of_le' hsmall.1
    have hplace : c.toNat - 87 = k + 10 := by omega
    rw [hplace, hlower k (by omega), hchar hk.symm]
  · right
    obtain ⟨k, hk⟩ := Nat.exists_eq_add_of_le' hlarge.1
    have hplace : c.toNat - 55 = k + 10 := by omega
    rw [hplace, hupper k (by omega), hchar hk.symm]
  · exact absurd hlt (lt_irrefl base)

theorem digitValue?_of_lt (h : digitValue? 16 c = some d) (hd : d < base) :
    digitValue? base c = some d := by
  simp only [digitValue?, Option.ite_none_right_eq_some, Option.some.injEq] at h ⊢
  split_ifs at h ⊢ with hnine hsmall hlarge
  · exact ⟨h.2 ▸ hd, h.2⟩
  · exact ⟨h.2 ▸ hd, h.2⟩
  · exact ⟨h.2 ▸ hd, h.2⟩
  · exact absurd h.1 (lt_irrefl 16)

theorem digitValue?_of_isDigit (h : IsDigit base c d) :
    digitValue? base c = some d := by
  have hlower : ∀ d : Fin 16, digitValue? 16 (lowerDigits.get d) = some d.val := by decide
  have hupper : ∀ d : Fin 16, digitValue? 16 (upperDigits.get d) = some d.val := by decide
  obtain ⟨hd, hc | hc⟩ := h
  · obtain ⟨hlt, rfl⟩ := List.getElem?_eq_some_iff.1 hc
    exact digitValue?_of_lt (hlower ⟨d, hlt⟩) hd
  · obtain ⟨hlt, rfl⟩ := List.getElem?_eq_some_iff.1 hc
    exact digitValue?_of_lt (hupper ⟨d, hlt⟩) hd

theorem digitValue?_eq_some_iff (hbase : base ≤ 16) :
    digitValue? base c = some d ↔ IsDigit base c d :=
  ⟨isDigit_of_digitValue? hbase, digitValue?_of_isDigit⟩

theorem value_eq_ofDigits (base : Nat) (ds : List Nat) :
    value base ds = Nat.ofDigits base ds.reverse := by
  induction ds using List.reverseRecOn with
  | nil => rfl
  | append_singleton ds d ih =>
    rw [value_append, ih, List.reverse_append, List.reverse_singleton, List.singleton_append,
      Nat.ofDigits_cons]
    simp only [List.foldl_cons, List.foldl_nil]
    ring

end Numeral

namespace IntegerLiteral

open Numeral

variable {base d n : Nat} {c : Char} {cs group : List Char} {ds : List Nat} {z : Int}

/-! ### Numerals -/

/-- At least one digit of the base, with the list of the digits. -/
def IsGroup (base : Nat) (group : List Char) (ds : List Nat) : Prop :=
  group ≠ [] ∧ List.Forall₂ (IsDigit base) group ds

/-- Groups of digits with single underscores between them; `n` is the value of all digits in a row. -/
def IsNumeral (base : Nat) (cs : List Char) (n : Nat) : Prop :=
  ∃ (groups : List (List Char)) (values : List (List Nat)), groups ≠ [] ∧
    List.Forall₂ (IsGroup base) groups values ∧ cs = ['_'].intercalate groups ∧
    n = Nat.ofDigits base values.flatten.reverse

theorem ne_underscore (h : IsDigit base c d) : c ≠ '_' :=
  ne_of_digitValue? (digitValue?_of_isDigit h) (digitValue?_underscore base)

theorem digits?_of_isGroup (h : IsGroup base group ds) : digits? base group = some ds := by
  obtain ⟨hne, h⟩ := h
  induction h with
  | nil => exact absurd rfl hne
  | cons hc hrest ih =>
    have hvalue := digitValue?_of_isDigit hc
    cases hrest with
    | nil => simp [digits?, hvalue]
    | cons hc' hrest' =>
      rw [digits?_cons_cons (ne_underscore hc'), hvalue, ih (List.cons_ne_nil _ _)]
      rfl

/-- An underscore behind a group is passed over. -/
theorem digits?_append_underscore (h : IsGroup base group ds) (cs : List Char) :
    digits? base (group ++ '_' :: cs) = (digits? base cs).map (ds ++ ·) := by
  obtain ⟨hne, h⟩ := h
  induction h with
  | nil => exact absurd rfl hne
  | cons hc hrest ih =>
    have hvalue := digitValue?_of_isDigit hc
    cases hrest with
    | nil =>
      rw [List.singleton_append, digits?, hvalue]
      cases digits? base cs <;> rfl
    | cons hc' hrest' =>
      rw [List.cons_append, List.cons_append, digits?_cons_cons (ne_underscore hc'), hvalue,
        ← List.cons_append, ih (List.cons_ne_nil _ _)]
      cases digits? base cs <;> rfl

theorem digits?_intercalate {groups : List (List Char)} {values : List (List Nat)}
    (hne : groups ≠ []) (h : List.Forall₂ (IsGroup base) groups values) :
    digits? base (['_'].intercalate groups) = some values.flatten := by
  induction h with
  | nil => exact absurd rfl hne
  | cons hgroup hrest ih =>
    cases hrest with
    | nil => rw [List.intercalate_singleton, digits?_of_isGroup hgroup, List.flatten_singleton]
    | cons hgroup' hrest' =>
      rw [List.intercalate_cons_cons, List.append_assoc, List.singleton_append,
        digits?_append_underscore hgroup, ih (List.cons_ne_nil _ _)]
      rfl

theorem exists_groups_of_digits? (hbase : base ≤ 16) (h : digits? base cs = some ds) :
    ∃ groups values, groups ≠ [] ∧ List.Forall₂ (IsGroup base) groups values ∧
      cs = ['_'].intercalate groups ∧ ds = values.flatten := by
  have hdigit : ∀ {c d}, digitValue? base c = some d → IsDigit base c d := isDigit_of_digitValue? hbase
  fun_induction digits? base cs generalizing ds with
  | case1 => cases h
  | case2 c =>
    obtain ⟨d, hd, rfl⟩ := Option.map_eq_some_iff.1 h
    exact ⟨[[c]], [[d]], by simp, .cons ⟨by simp, .cons (hdigit hd) .nil⟩ .nil, by simp, by simp⟩
  | case3 c cs ih =>
    obtain ⟨d, hd, h⟩ := Option.bind_eq_some_iff.1 h
    obtain ⟨ds', hds', h⟩ := Option.bind_eq_some_iff.1 h
    cases h
    obtain ⟨groups, values, hne, hgroups, rfl, rfl⟩ := ih hds'
    refine ⟨[c] :: groups, [d] :: values, by simp,
      .cons ⟨by simp, .cons (hdigit hd) .nil⟩ hgroups, ?_, by simp⟩
    rw [List.intercalate_cons_of_ne_nil hne]
    simp
  | case4 c cs hnil hunderscore ih =>
    obtain ⟨d, hd, h⟩ := Option.bind_eq_some_iff.1 h
    obtain ⟨ds', hds', h⟩ := Option.bind_eq_some_iff.1 h
    cases h
    -- The digit comes in front of the first group of the others.
    obtain ⟨_, _, hne, _ | @⟨group, value, groups, values, hgroup, hgroups⟩, rfl, rfl⟩ := ih hds'
    · exact absurd rfl hne
    · refine ⟨(c :: group) :: groups, (d :: value) :: values, by simp,
        .cons ⟨by simp, .cons (hdigit hd) hgroup.2⟩ hgroups, ?_, by simp⟩
      cases hgroups with
      | nil => simp
      | cons _ _ => simp [List.intercalate_cons_cons]

/-- The natural number of a numeral is read, and nothing else is read. -/
theorem natural?_eq_some_iff (hbase : base ≤ 16) : natural? base cs = some n ↔ IsNumeral base cs n := by
  rw [natural?, Option.map_eq_some_iff]
  constructor
  · rintro ⟨ds, hds, rfl⟩
    obtain ⟨groups, values, hne, hgroups, hcs, rfl⟩ := exists_groups_of_digits? hbase hds
    exact ⟨groups, values, hne, hgroups, hcs, value_eq_ofDigits base _⟩
  · rintro ⟨groups, values, hne, hgroups, rfl, rfl⟩
    exact ⟨_, digits?_intercalate hne hgroups, value_eq_ofDigits base _⟩

/-! ### Integers -/

/-- A sign or none, and a numeral; a minus sign makes the integer negative. -/
def IsInteger (base : Nat) (cs : List Char) (z : Int) : Prop :=
  ∃ sign ∈ [[], ['+'], ['-']], ∃ body n, cs = sign ++ body ∧ IsNumeral base body n ∧
    z = if sign = ['-'] then -(n : Int) else n

/-- A numeral starts with a digit, and not with a sign. -/
theorem integer?_of_isNumeral (hbase : base ≤ 16) (h : IsNumeral base cs n) :
    integer? base cs = some (n : Int) := by
  have hnatural := (natural?_eq_some_iff hbase).2 h
  have hfirst : ∀ {c}, digitValue? base c = none → ∀ rest, cs ≠ c :: rest := by
    rintro c hc rest rfl
    rw [natural?, digits?_cons_of_none hc] at hnatural
    cases hnatural
  cases cs with
  | nil => cases hnatural
  | cons c cs =>
    have hminus : c ≠ '-' := fun hc => hfirst (digitValue?_minus base) cs (by rw [hc])
    have hplus : c ≠ '+' := fun hc => hfirst (digitValue?_plus base) cs (by rw [hc])
    rw [integer?_of_ne hminus hplus, hnatural]
    rfl

/-- What is read as an integer is a sign or none and a numeral. -/
theorem integer?_eq_some_iff (hbase : base ≤ 16) :
    integer? base cs = some z ↔ IsInteger base cs z := by
  constructor
  · intro h
    unfold integer? at h
    split at h
    · obtain ⟨n, hn, rfl⟩ := Option.map_eq_some_iff.1 h
      exact ⟨['-'], by simp, _, n, rfl, (natural?_eq_some_iff hbase).1 hn, rfl⟩
    · obtain ⟨n, hn, rfl⟩ := Option.map_eq_some_iff.1 h
      exact ⟨['+'], by simp, _, n, rfl, (natural?_eq_some_iff hbase).1 hn, rfl⟩
    · obtain ⟨n, hn, rfl⟩ := Option.map_eq_some_iff.1 h
      exact ⟨[], by simp, _, n, rfl, (natural?_eq_some_iff hbase).1 hn, rfl⟩
  · rintro ⟨sign, hsign, body, n, rfl, hbody, rfl⟩
    have hnatural := (natural?_eq_some_iff hbase).2 hbody
    simp only [List.mem_cons, List.not_mem_nil, or_false] at hsign
    obtain rfl | rfl | rfl := hsign
    · exact integer?_of_isNumeral hbase hbody
    · rw [List.singleton_append, integer?, hnatural]
      rfl
    · rw [List.singleton_append, integer?, hnatural]
      rfl

end IntegerLiteral

end SigScript
