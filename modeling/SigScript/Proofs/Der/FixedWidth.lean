import Mathlib
import SigScript.Proofs.Der.ObjectIdentifier

/-!
# Identifiers in words of 64 bits

Here identifiers are written and read a second time, with machine words and a buffer of ten octets.
A computation is stopped (`none`) when a sum, a product or a difference has no place in a word, a
shift loses a bit, the buffer is full or an index is out of range.  No computation on an identifier
that can be made is ever stopped: writing agrees with the contents of the codec (`contents_eq`), and
reading with its `ofContents`, whatever the octets are (`ofContents_eq`).
-/

namespace SigScript.ObjectIdentifier.FixedWidth

/-! ### Words -/

/-- The product of two words, which must be a word. -/
def mul (a b : UInt64) : Option UInt64 := if a.toNat * b.toNat < 2 ^ 64 then some (a * b) else none

/-- The sum of two words, which must be a word. -/
def add (a b : UInt64) : Option UInt64 := if a.toNat + b.toNat < 2 ^ 64 then some (a + b) else none

/-- The difference of two words, which must not be negative. -/
def sub (a b : UInt64) : Option UInt64 := if b ≤ a then some (a - b) else none

/-- A word with seven free bits on the right, which must not cost any on the left. -/
def shift (a : UInt64) : Option UInt64 := if a.toNat * 2 ^ 7 < 2 ^ 64 then some (a <<< 7) else none

/-! ### Writing -/

/-- Puts the groups of `value` in front of the octets written so far.  There are `room` free octets
left in the buffer. -/
def fill : (room : Nat) → (value : UInt64) → (written : Bytes) → Option Bytes
  | room, value, written =>
    if value = 0 then some written
    else match room with
      | 0 => none
      | room + 1 => fill room (value >>> 7) ((0x80 ||| (value &&& 0x7f).toUInt8) :: written)

/-- The octets of a number, written to a buffer of ten octets from its end. -/
def writeNumber (value : UInt64) : Option Bytes := fill 9 (value >>> 7) [(value &&& 0x7f).toUInt8]

/-- The contents of an identifier, one piece a number. -/
def contents (oid : ObjectIdentifier) : Option (List Bytes) := do
  let first ← oid.arcs[0]?
  let second ← oid.arcs[1]?
  let shared ← add (← mul first 40) second
  (shared :: oid.arcs.drop 2).mapM writeNumber

/-! ### Reading -/

/-- Reads numbers.  A number is `started` when some of its groups are in `current` already. -/
def readNumbers (current : UInt64) (started : Bool) :
    Bytes → Option (Except DecodeError (List UInt64))
  | [] => some (.ok [])
  | octet :: rest =>
    if !started ∧ octet = 0x80 then some (.error .invalidValue)
    else if (0xFFFFFFFFFFFFFFFF : UInt64) >>> 7 < current then some (.error .lengthOverflow)
    else do
      let n := (← shift current) ||| (octet &&& 0x7f).toUInt64
      if octet &&& 0x80 = 0 then return (← readNumbers 0 false rest).map (n :: ·)
      else readNumbers n true rest

/-- The two arcs that share a number. -/
def splitArcs (n : UInt64) : Option (UInt64 × UInt64) :=
  if n ≤ 39 then some (0, n)
  else if n ≤ 79 then do return (1, ← sub n 40)
  else do return (2, ← sub n 80)

/-- The identifier that contents stand for. -/
def ofContents (octets : Bytes) : Option (Except DecodeError ObjectIdentifier) :=
  if octets.isEmpty then some (.error .invalidValue)
  else do
    let last ← octets[octets.length - 1]?
    if last &&& 0x80 ≠ 0 then return .error .invalidValue
    match ← readNumbers 0 false octets with
    | .error e => return .error e
    | .ok numbers =>
      let (first, second) ← splitArcs (← numbers[0]?)
      return .ok ⟨first :: second :: numbers.drop 1⟩

/-! ### Words as numbers -/

theorem toNat_group (value : UInt64) : (value &&& 0x7f).toUInt8.toNat = value.toNat % 128 := by
  have hmask : value.toNat &&& 127 = value.toNat % 2 ^ 7 := Nat.and_two_pow_sub_one_eq_mod _ 7
  rw [UInt64.toNat_toUInt8, UInt64.toNat_and]
  change (value.toNat &&& 127) % 2 ^ 8 = _
  rw [hmask]
  omega

theorem toNat_shiftRight (value : UInt64) : (value >>> 7).toNat = value.toNat / 128 := by
  rw [UInt64.toNat_shiftRight]
  exact Nat.shiftRight_eq_div_pow _ 7

/-- A group that is not the last of its number. -/
theorem continued_group (value : UInt64) :
    0x80 ||| (value &&& 0x7f).toUInt8 = UInt8.ofNat (0x80 + value.toNat % 128) := by
  have hlt : value.toNat % 128 < 2 ^ 7 := Nat.mod_lt _ (by omega)
  apply UInt8.toNat_inj.1
  rw [UInt8.toNat_or, toNat_group, toNat_continued_group]
  exact (Nat.two_pow_add_eq_or_of_lt hlt 1).symm

theorem toNat_shift_or {current : UInt64} {octet : UInt8} (h : current.toNat < 2 ^ 57) :
    (current <<< 7 ||| (octet &&& 0x7f).toUInt64).toNat =
      128 * current.toNat + octet.toNat % 128 := by
  have hlt : octet.toNat % 128 < 2 ^ 7 := Nat.mod_lt _ (by omega)
  have hmask : octet.toNat &&& 127 = octet.toNat % 2 ^ 7 := Nat.and_two_pow_sub_one_eq_mod _ 7
  have hshift : (current <<< 7).toNat = 2 ^ 7 * current.toNat := by
    rw [UInt64.toNat_shiftLeft]
    change current.toNat <<< 7 % 2 ^ 64 = _
    rw [Nat.shiftLeft_eq]
    omega
  have hgroup : (octet &&& 0x7f).toUInt64.toNat = octet.toNat % 128 := by
    rw [UInt8.toNat_toUInt64, UInt8.toNat_and]
    exact hmask
  rw [UInt64.toNat_or, hshift, hgroup, ← Nat.two_pow_add_eq_or_of_lt hlt]

theorem top_bit_eq_zero_iff {octet : UInt8} : octet &&& 0x80 = 0 ↔ octet < 0x80 := by
  have hall : ∀ n < 256, n &&& 128 = 0 ↔ n < 128 := by decide +kernel
  rw [← UInt8.toNat_inj, UInt8.lt_iff_toNat_lt, UInt8.toNat_and]
  exact hall _ octet.toNat_lt

/-! ### Writing agrees -/

/-- There is room for as many groups as the value has. -/
theorem fill_eq {room : Nat} {value : UInt64} (h : value.toNat < 128 ^ room) (written : Bytes) :
    fill room value written = some (groupsOnto value.toNat written) := by
  induction room generalizing value written with
  | zero =>
    have hzero : value = 0 := UInt64.toNat_inj.1 (Nat.lt_one_iff.1 h)
    rw [fill, if_pos hzero, hzero]
    exact congrArg some (groupsOnto_zero written).symm
  | succ room ih =>
    unfold fill
    split
    · rename_i hzero
      rw [hzero]
      exact congrArg some (groupsOnto_zero written).symm
    · rename_i hne
      have hnonzero : value.toNat ≠ 0 := fun hzero => hne (UInt64.toNat_inj.1 hzero)
      have hroom : (value >>> 7).toNat < 128 ^ room := by
        rw [toNat_shiftRight]
        rw [pow_succ] at h
        omega
      simp only
      rw [ih hroom, continued_group, toNat_shiftRight, groupsOnto_of_ne_zero hnonzero]

/-- Ten octets are enough for a word. -/
theorem writeNumber_eq (value : UInt64) : writeNumber value = some (base128 value.toNat) := by
  have hroom : (value >>> 7).toNat < 128 ^ 9 := by
    rw [toNat_shiftRight]
    have := value.toNat_lt
    omega
  have hgroup : (value &&& 0x7f).toUInt8 = UInt8.ofNat (value.toNat % 128) := by
    rw [← toNat_group, UInt8.ofNat_toNat]
  rw [writeNumber, fill_eq hroom, toNat_shiftRight, hgroup, base128]

/-- The shared number is a word. -/
theorem shared_lt {first second : UInt64} {rest : List UInt64}
    (h : WellFormed (first :: second :: rest)) : first.toNat * 40 + second.toNat < 2 ^ 64 := by
  rcases h with ⟨hfirst, hsecond⟩ | ⟨hfirst, hsecond⟩
  · have h2 : first.toNat < 2 := UInt64.lt_iff_toNat_lt.1 hfirst
    have h40 : second.toNat < 40 := UInt64.lt_iff_toNat_lt.1 hsecond
    omega
  · have h2 : first.toNat = 2 := by rw [hfirst]; rfl
    have hle : second.toNat ≤ 0xFFFFFFFFFFFFFFFF - 80 := UInt64.le_iff_toNat_le.1 hsecond
    omega

theorem contents_eq {oid : ObjectIdentifier} (h : WellFormed oid.arcs) :
    contents oid = some (codec.contents oid) := by
  obtain ⟨arcs⟩ := oid
  obtain ⟨first, second, rest, rfl⟩ := exists_of_wellFormed h
  have hlt := shared_lt h
  have hmul : mul first 40 = some (first * 40) :=
    if_pos (show first.toNat * 40 < 2 ^ 64 by omega)
  have hproduct : (first * 40).toNat = first.toNat * 40 := by
    rw [UInt64.toNat_mul]
    exact Nat.mod_eq_of_lt (show first.toNat * 40 < 2 ^ 64 by omega)
  have hadd : add (first * 40) second = some (joinArcs first second) := by
    rw [add, hproduct, if_pos hlt, joinArcs]
  have hwrite : writeNumber = fun value => pure (base128 value.toNat) := funext writeNumber_eq
  have hcontents : contents ⟨first :: second :: rest⟩ = (do
      let shared ← add (← mul first 40) second
      (shared :: rest).mapM writeNumber) := rfl
  rw [hcontents, hmul, Option.bind_eq_bind, Option.bind_some, hadd, Option.bind_some, hwrite,
    List.mapM_pure]
  rfl

/-! ### Reading agrees -/

/-- A number is under way exactly when its groups so far are not zero, since none starts with an
empty group. -/
theorem readNumbers_eq {current : UInt64} {started : Bool} (h : started = true ↔ current ≠ 0)
    (octets : Bytes) :
    readNumbers current started octets = some (ObjectIdentifier.readNumbers current.toNat octets) := by
  induction octets generalizing current started with
  | nil => rfl
  | cons octet rest ih =>
    have hstart : (!started ∧ octet = 0x80) ↔ (current.toNat = 0 ∧ octet = 0x80) := by
      have hzero : current.toNat = 0 ↔ current = 0 := UInt64.toNat_inj (b := 0)
      rw [hzero]
      grind
    have hlimit : (0xFFFFFFFFFFFFFFFF : UInt64) >>> 7 < current ↔ 0x200000000000000 ≤ current.toNat := by
      rw [UInt64.lt_iff_toNat_lt]
      exact Nat.succ_le_iff.symm
    rw [readNumbers, ObjectIdentifier.readNumbers]
    by_cases hempty : current.toNat = 0 ∧ octet = 0x80
    · rw [if_pos (hstart.2 hempty), if_pos hempty]
    rw [if_neg (mt hstart.1 hempty), if_neg hempty]
    by_cases hlarge : 0x200000000000000 ≤ current.toNat
    · rw [if_pos (hlimit.2 hlarge), if_pos hlarge]
    rw [if_neg (mt hlimit.1 hlarge), if_neg hlarge]
    have hshift : shift current = some (current <<< 7) := if_pos (by omega)
    have hnumber : (current <<< 7 ||| (octet &&& 0x7f).toUInt64).toNat =
        128 * current.toNat + octet.toNat % 128 := toNat_shift_or (by omega)
    rw [hshift, Option.bind_eq_bind, Option.bind_some]
    simp only [top_bit_eq_zero_iff]
    by_cases hend : octet < 0x80
    · have hword : current <<< 7 ||| (octet &&& 0x7f).toUInt64 =
          UInt64.ofNat (128 * current.toNat + octet.toNat % 128) := by
        rw [← hnumber, UInt64.ofNat_toNat]
      rw [if_pos hend, if_pos hend, ih (by simp), hword]
      rfl
    · have hcontinue : current <<< 7 ||| (octet &&& 0x7f).toUInt64 ≠ 0 := by
        intro hzero
        rw [hzero] at hnumber
        exact continued_ne_zero (UInt8.not_lt.1 hend) hempty hnumber.symm
      rw [if_neg hend, if_neg hend, ih (by simpa using hcontinue), hnumber]

theorem splitArcs_eq (n : UInt64) : splitArcs n = some (ObjectIdentifier.splitArcs n) := by
  have h40 : n ≤ 39 ↔ n < 40 := by
    rw [UInt64.le_iff_toNat_le, UInt64.lt_iff_toNat_lt]
    exact Nat.lt_succ_iff.symm
  have h80 : n ≤ 79 ↔ n < 80 := by
    rw [UInt64.le_iff_toNat_le, UInt64.lt_iff_toNat_lt]
    exact Nat.lt_succ_iff.symm
  unfold splitArcs ObjectIdentifier.splitArcs
  rw [if_congr h40 rfl (if_congr h80 rfl rfl)]
  split
  · rfl
  · rename_i hge
    have hsub : sub n 40 = some (n - 40) := if_pos (UInt64.not_lt.1 hge)
    split
    · rw [hsub]
      rfl
    · rename_i hge'
      have hsub' : sub n 80 = some (n - 80) := if_pos (UInt64.not_lt.1 hge')
      rw [hsub']
      rfl

/-- Octets whose last one ends a number hold a number. -/
theorem ne_nil_of_readNumbers {octets : Bytes} {numbers : List UInt64} (hne : octets ≠ [])
    (hlast : octets.getLastD 0x80 < 0x80)
    (h : ObjectIdentifier.readNumbers 0 octets = .ok numbers) : numbers ≠ [] := by
  rintro rfl
  have hoctets := eq_flatMap_base128 0x80 (by simp) hlast h
  rw [groupsOnto_zero] at hoctets
  exact hne hoctets

theorem ofContents_eq (octets : Bytes) :
    ofContents octets = some (ObjectIdentifier.ofContents octets) := by
  obtain rfl | ⟨front, last, rfl⟩ := List.eq_nil_or_concat' octets
  · rfl
  have hlast : (front ++ [last])[(front ++ [last]).length - 1]? = some last := by simp
  have hlastD : (front ++ [last]).getLastD 0x80 = last := by simp
  have hread : readNumbers 0 false (front ++ [last]) =
      some (ObjectIdentifier.readNumbers 0 (front ++ [last])) := readNumbers_eq (by simp) _
  rw [ofContents, if_neg (by simp), hlast, hread, ObjectIdentifier.ofContents, hlastD]
  by_cases hend : last < 0x80
  · cases hnumbers : ObjectIdentifier.readNumbers 0 (front ++ [last]) with
    | error e => simp [top_bit_eq_zero_iff, hend]
    | ok numbers =>
      have hne := ne_nil_of_readNumbers (by simp) (by rwa [hlastD]) hnumbers
      obtain ⟨shared, arcs, rfl⟩ := List.exists_cons_of_ne_nil hne
      simp [top_bit_eq_zero_iff, hend, splitArcs_eq]
  · simp [top_bit_eq_zero_iff, hend]

end SigScript.ObjectIdentifier.FixedWidth
