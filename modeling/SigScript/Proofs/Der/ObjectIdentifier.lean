import Mathlib
import SigScript.Der.ObjectIdentifier
import SigScript.Proofs.Der.Codec

/-!
# Object identifiers are faithful

The contents of an object identifier are numbers in base 128.  Reading numbers is the inverse of
writing them (`readNumbers_flatMap_base128`, `eq_flatMap_base128`), and the first two arcs share their
number in one way only (`splitArcs_joinArcs`, `joinArcs_splitArcs`).  So the codec is faithful for the
identifiers that can be made from arcs at all (`codec_faithful`).
-/

namespace SigScript.ObjectIdentifier

/-- The identifier is one that `ofArcs` answers with. -/
def Constructible (oid : ObjectIdentifier) : Prop := ∃ arcs, ofArcs arcs = .ok oid

theorem constructible_iff {oid : ObjectIdentifier} : oid.Constructible ↔ WellFormed oid.arcs := by
  constructor
  · rintro ⟨arcs, h⟩
    unfold ofArcs at h
    split at h
    · rename_i hwf
      cases h
      exact hwf
    · cases h
  · intro hwf
    exact ⟨oid.arcs, if_pos hwf⟩

theorem exists_of_wellFormed {arcs : List UInt64} (h : WellFormed arcs) :
    ∃ first second rest, arcs = first :: second :: rest := by
  match arcs, h with
  | first :: second :: rest, _ => exact ⟨first, second, rest, rfl⟩

instance (oid : ObjectIdentifier) : Decidable oid.Constructible :=
  decidable_of_iff' _ constructible_iff

/-! ### Groups of seven bits -/

theorem groupsOnto_append (n : Nat) (front rest : Bytes) :
    groupsOnto n (front ++ rest) = groupsOnto n front ++ rest := by
  fun_induction groupsOnto n front with
  | case1 front => rw [groupsOnto, dif_pos rfl]
  | case2 n front h ih => rw [groupsOnto, dif_neg h, ← List.cons_append, ih]

theorem groupsOnto_zero (rest : Bytes) : groupsOnto 0 rest = rest := by
  rw [groupsOnto, dif_pos rfl]

theorem groupsOnto_of_ne_zero {n : Nat} (hn : n ≠ 0) (rest : Bytes) :
    groupsOnto n rest = groupsOnto (n / 128) (UInt8.ofNat (0x80 + n % 128) :: rest) := by
  rw [groupsOnto, dif_neg hn]

theorem toNat_continued_group (n : Nat) : (UInt8.ofNat (0x80 + n % 128)).toNat = 0x80 + n % 128 :=
  UInt8.toNat_ofNat_of_lt' (show 0x80 + n % 128 < 256 by omega)

theorem toNat_last_group (n : Nat) : (UInt8.ofNat (n % 128)).toNat = n % 128 :=
  UInt8.toNat_ofNat_of_lt' (show n % 128 < 256 by omega)

/-- A number that goes on is not zero, since it does not start with an empty group. -/
theorem continued_ne_zero {current : Nat} {octet : UInt8} (hoctet : 0x80 ≤ octet)
    (hne : ¬(current = 0 ∧ octet = 0x80)) : 128 * current + octet.toNat % 128 ≠ 0 := by
  have hlt := octet.toNat_lt
  have hle : 0x80 ≤ octet.toNat := UInt8.le_iff_toNat_le.1 hoctet
  intro hzero
  have h80 : octet.toNat = 0x80 := by omega
  exact hne ⟨by omega, UInt8.toNat_inj.1 h80⟩

/-- The number of the groups before is continued by an octet with its top bit set. -/
theorem groupsOnto_continue {current : Nat} {octet : UInt8} (rest : Bytes) (hoctet : 0x80 ≤ octet)
    (hne : ¬(current = 0 ∧ octet = 0x80)) :
    groupsOnto (128 * current + octet.toNat % 128) rest = groupsOnto current (octet :: rest) := by
  have hlt := octet.toNat_lt
  have hle : 0x80 ≤ octet.toNat := UInt8.le_iff_toNat_le.1 hoctet
  have hdiv : (128 * current + octet.toNat % 128) / 128 = current := by omega
  have hgroup : 0x80 + (128 * current + octet.toNat % 128) % 128 = octet.toNat := by omega
  rw [groupsOnto_of_ne_zero (continued_ne_zero hoctet hne), hdiv, hgroup, UInt8.ofNat_toNat]

/-- The number of the groups before is ended by an octet without its top bit. -/
theorem base128_end {current : Nat} {octet : UInt8} (hoctet : octet < 0x80) :
    base128 (128 * current + octet.toNat % 128) = groupsOnto current [octet] := by
  have hlt : octet.toNat < 0x80 := UInt8.lt_iff_toNat_lt.1 hoctet
  have hdiv : (128 * current + octet.toNat % 128) / 128 = current := by omega
  have hmod : (128 * current + octet.toNat % 128) % 128 = octet.toNat := by omega
  rw [base128, hdiv, hmod, UInt8.ofNat_toNat]

theorem getLastD_base128 (n : Nat) (front : Bytes) (d : UInt8) :
    (front ++ base128 n).getLastD d < 0x80 := by
  have hsplit : base128 n = groupsOnto (n / 128) [] ++ [UInt8.ofNat (n % 128)] := by
    rw [base128, ← groupsOnto_append, List.nil_append]
  have hlt : UInt8.ofNat (n % 128) < 0x80 := by
    rw [UInt8.lt_iff_toNat_lt, toNat_last_group]
    exact Nat.mod_lt n (by omega)
  rw [hsplit, ← List.append_assoc]
  simpa using hlt

/-! ### Reading what was written -/

theorem readNumbers_groupsOnto {n : Nat} (hn : n < 0x200000000000000) (rest : Bytes) :
    readNumbers 0 (groupsOnto n rest) = readNumbers n rest := by
  fun_induction groupsOnto n rest with
  | case1 rest => rfl
  | case2 n rest h ih =>
    have hoctet := toNat_continued_group n
    have hfirst : ¬(n / 128 = 0 ∧ UInt8.ofNat (0x80 + n % 128) = 0x80) := by
      rintro ⟨hdiv, heq⟩
      have h80 := congrArg UInt8.toNat heq
      rw [hoctet] at h80
      have : (0x80 : UInt8).toNat = 128 := rfl
      omega
    have hmore : ¬UInt8.ofNat (0x80 + n % 128) < 0x80 := by
      rw [UInt8.lt_iff_toNat_lt, hoctet]
      exact not_lt.2 (Nat.le_add_right _ _)
    have hvalue : 128 * (n / 128) + (0x80 + n % 128) % 128 = n := by omega
    rw [ih (by omega), readNumbers, if_neg hfirst, if_neg (by omega)]
    simp only [hoctet, hvalue, if_neg hmore]

theorem readNumbers_base128 (arc : UInt64) (rest : Bytes) :
    readNumbers 0 (base128 arc.toNat ++ rest) = (readNumbers 0 rest).map (arc :: ·) := by
  have harc := arc.toNat_lt
  have hoctet := toNat_last_group arc.toNat
  have hlast : UInt8.ofNat (arc.toNat % 128) < 0x80 := by
    rw [UInt8.lt_iff_toNat_lt, hoctet]
    exact Nat.mod_lt _ (by omega)
  have hne : ¬(arc.toNat / 128 = 0 ∧ UInt8.ofNat (arc.toNat % 128) = 0x80) := by
    rintro ⟨-, heq⟩
    rw [heq] at hlast
    exact absurd hlast (by decide)
  have hvalue : 128 * (arc.toNat / 128) + arc.toNat % 128 % 128 = arc.toNat := by omega
  rw [base128, ← groupsOnto_append, readNumbers_groupsOnto (by omega), List.singleton_append,
    readNumbers, if_neg hne, if_neg (by omega)]
  simp only [hoctet, hvalue, if_pos hlast, UInt64.ofNat_toNat]

theorem readNumbers_flatMap_base128 (arcs : List UInt64) :
    readNumbers 0 (arcs.flatMap fun arc => base128 arc.toNat) = .ok arcs := by
  induction arcs with
  | nil => rfl
  | cons arc arcs ih => rw [List.flatMap_cons, readNumbers_base128, ih, map_ok]

/-! ### Writing what was read -/

/-- Octets that end with a whole number are the numbers read from them.  `previous` is the octet in
front, which has its top bit set while a number is under way. -/
theorem eq_flatMap_base128 {current : Nat} {octets : Bytes} {numbers : List UInt64}
    (previous : UInt8) (hprevious : current ≠ 0 → 0x80 ≤ previous)
    (hlast : octets.getLastD previous < 0x80) (h : readNumbers current octets = .ok numbers) :
    groupsOnto current octets = numbers.flatMap fun n => base128 n.toNat := by
  -- The induction follows the octets; the groups read so far are the front of the first number.
  fun_induction readNumbers current octets generalizing previous numbers with
  | case1 current =>
    cases h
    have hzero : current = 0 := by
      by_contra hne
      exact absurd hlast (UInt8.not_lt.2 (hprevious hne))
    rw [hzero, groupsOnto_zero, List.flatMap_nil]
  | case2 => cases h
  | case3 => cases h
  | case4 current octet rest hne hbound n hoctet =>
    rename_i ih
    obtain ⟨more, hmore, rfl⟩ := map_eq_ok_iff.1 h
    rw [List.getLastD_cons] at hlast
    have hrest := ih octet (by simp) hlast hmore
    rw [groupsOnto_zero] at hrest
    have hnumber : (UInt64.ofNat n).toNat = n := by
      rw [UInt64.toNat_ofNat']
      omega
    have hsplit : groupsOnto current (octet :: rest) = groupsOnto current [octet] ++ rest := by
      rw [← groupsOnto_append, List.singleton_append]
    rw [List.flatMap_cons, hnumber, base128_end hoctet, ← hrest, hsplit]
  | case5 current octet rest hne hbound n hoctet =>
    rename_i ih
    have hcontinue : 0x80 ≤ octet := UInt8.not_lt.1 hoctet
    rw [List.getLastD_cons] at hlast
    rw [← groupsOnto_continue rest hcontinue hne]
    exact ih octet (fun _ => hcontinue) hlast h

/-! ### The shared number -/

theorem splitArcs_joinArcs {first second : UInt64} {arcs : List UInt64}
    (h : WellFormed (first :: second :: arcs)) :
    splitArcs (joinArcs first second) = (first, second) := by
  unfold splitArcs joinArcs
  rcases h with ⟨hfirst, hsmall⟩ | ⟨hfirst, hsmall⟩
  · grind
  · grind

theorem joinArcs_splitArcs (n : UInt64) : joinArcs (splitArcs n).1 (splitArcs n).2 = n := by
  unfold splitArcs joinArcs
  grind

theorem wellFormed_splitArcs (n : UInt64) (arcs : List UInt64) :
    WellFormed ((splitArcs n).1 :: (splitArcs n).2 :: arcs) := by
  unfold splitArcs WellFormed
  grind

/-! ### The codec -/

theorem flatten_contents (first second : UInt64) (arcs : List UInt64) :
    (codec.contents ⟨first :: second :: arcs⟩).flatten =
      (joinArcs first second :: arcs).flatMap fun n => base128 n.toNat := by
  have hcontents : codec.contents ⟨first :: second :: arcs⟩ =
      base128 (joinArcs first second).toNat :: arcs.map fun arc => base128 arc.toNat := rfl
  rw [hcontents, List.flatten_cons, List.flatMap_cons, List.flatMap_def]

theorem getLastD_flatMap_base128 (n : UInt64) (arcs : List UInt64) (d : UInt8) :
    ((n :: arcs).flatMap fun n => base128 n.toNat).getLastD d < 0x80 := by
  have hlast : (n :: arcs) ≠ [] := List.cons_ne_nil n arcs
  rw [← List.dropLast_append_getLast hlast, List.flatMap_append, List.flatMap_singleton]
  exact getLastD_base128 _ _ _

theorem ofContents_eq_ok_iff {octets : Bytes} {oid : ObjectIdentifier} :
    ofContents octets = .ok oid ↔ ∃ shared arcs,
      octets = (shared :: arcs).flatMap (fun n => base128 n.toNat) ∧
        oid = ⟨(splitArcs shared).1 :: (splitArcs shared).2 :: arcs⟩ := by
  unfold ofContents
  constructor
  · intro h
    split at h
    · rename_i hlast
      obtain ⟨numbers, hnumbers, h⟩ := bind_eq_ok_iff.1 h
      have hoctets := eq_flatMap_base128 0x80 (by simp) hlast hnumbers
      rw [groupsOnto_zero] at hoctets
      cases numbers with
      | nil => cases h
      | cons shared arcs =>
        cases h
        exact ⟨shared, arcs, hoctets, rfl⟩
    · cases h
  · rintro ⟨shared, arcs, rfl, rfl⟩
    rw [if_pos (getLastD_flatMap_base128 shared arcs _), readNumbers_flatMap_base128, ok_bind]
    rfl

theorem codec_faithful : codec.Faithful Constructible := by
  intro octets oid _
  change ofContents octets = .ok oid ↔ _
  rw [ofContents_eq_ok_iff]
  constructor
  · rintro ⟨shared, arcs, rfl, rfl⟩
    refine ⟨constructible_iff.2 (wellFormed_splitArcs shared arcs), ?_⟩
    rw [flatten_contents, joinArcs_splitArcs]
  · rintro ⟨hoid, rfl⟩
    rw [constructible_iff] at hoid
    obtain ⟨arcs⟩ := oid
    obtain ⟨first, second, arcs, rfl⟩ := exists_of_wellFormed hoid
    refine ⟨joinArcs first second, arcs, flatten_contents first second arcs, ?_⟩
    rw [splitArcs_joinArcs hoid]

end SigScript.ObjectIdentifier
