import Mathlib
import SigScript.Proofs.Der.Canonical
import SigScript.Proofs.Der.FixedWidth

/-!
# Numbers that are too large

The contents of an identifier are numbers one behind the other, each ended by an octet without its top
bit (`subidentifiers`).  Reading goes through them in order and stops at the first that starts with
an empty group or has more than 64 bits (`readNumbers_append`), so a number is found too large
exactly when it is and no number up to it has the other fault (`ofContents_eq_lengthOverflow_iff`).
Together with the computations in machine words this says that 64 bits are always enough
(`fits_in_words`).
-/

namespace SigScript.ObjectIdentifier

/-! ### The numbers of octets -/

/-- Octets cut behind each octet that has no top bit. -/
def subidentifiers (octets : Bytes) : List Bytes := octets.splitBy fun octet _ => 0x80 ≤ octet

/-- All octets of a number but the last have their top bit set. -/
def IsSubidentifier (octets : Bytes) : Prop :=
  ∃ front last, octets = front ++ [last] ∧ (∀ octet ∈ front, 0x80 ≤ octet) ∧ last < 0x80

/-- The number that the groups of `octets` extend `current` to. -/
def extend (current : Nat) (octets : Bytes) : Nat :=
  octets.foldl (fun n octet => 128 * n + octet.toNat % 128) current

/-- The value of octets in base 128. -/
def ofBase128 (octets : Bytes) : Nat := extend 0 octets

/-- One of the numbers has more than 64 bits, and none up to it starts with an empty group. -/
def Overflows (numbers : List Bytes) : Prop :=
  ∃ before number after, numbers = before ++ number :: after ∧ 2 ^ 64 ≤ ofBase128 number ∧
    ∀ n ∈ before ++ [number], n.head? ≠ some 0x80

theorem extend_cons (current : Nat) (octet : UInt8) (octets : Bytes) :
    extend current (octet :: octets) = extend (128 * current + octet.toNat % 128) octets := rfl

theorem le_extend (current : Nat) (octets : Bytes) : current ≤ extend current octets := by
  induction octets generalizing current with
  | nil => exact le_refl current
  | cons octet octets ih =>
    have hle := ih (128 * current + octet.toNat % 128)
    rw [extend_cons]
    omega

/-! ### Cutting octets -/

variable {number octets : Bytes} {numbers : List Bytes}

theorem subidentifiers_append (h : IsSubidentifier number) (rest : Bytes) :
    subidentifiers (number ++ rest) = number :: subidentifiers rest := by
  obtain ⟨front, last, rfl, hfront, hlast⟩ := h
  have hcut : subidentifiers (front ++ [last] ++ rest) =
      subidentifiers (front ++ [last]) ++ subidentifiers rest := by
    apply List.splitBy_append
    intro octet hoctet _ _
    rw [List.getLast?_concat] at hoctet
    cases hoctet
    exact decide_eq_false (UInt8.not_le.2 hlast)
  have hchain : (front ++ [last]).IsChain fun octet _ => decide (0x80 ≤ octet) = true := by
    clear hcut
    induction front with
    | nil => exact List.isChain_singleton last
    | cons octet front ih =>
      obtain ⟨hoctet, hmore⟩ := List.forall_mem_cons.1 hfront
      rw [List.cons_append, List.isChain_cons]
      exact ⟨fun _ _ => decide_eq_true hoctet, ih hmore⟩
  rw [hcut, subidentifiers, List.splitBy_of_isChain (by simp) hchain, List.singleton_append]

theorem subidentifiers_flatten (h : ∀ number ∈ numbers, IsSubidentifier number) :
    subidentifiers numbers.flatten = numbers := by
  induction numbers with
  | nil => rfl
  | cons number numbers ih =>
    obtain ⟨hnumber, hnumbers⟩ := List.forall_mem_cons.1 h
    rw [List.flatten_cons, subidentifiers_append hnumber, ih hnumbers]

theorem isSubidentifier_singleton {octet : UInt8} (h : octet < 0x80) : IsSubidentifier [octet] :=
  ⟨[], octet, rfl, by simp, h⟩

theorem IsSubidentifier.cons {octet : UInt8} (hoctet : 0x80 ≤ octet) (h : IsSubidentifier number) :
    IsSubidentifier (octet :: number) := by
  obtain ⟨front, last, rfl, hfront, hlast⟩ := h
  exact ⟨octet :: front, last, rfl, List.forall_mem_cons.2 ⟨hoctet, hfront⟩, hlast⟩

/-- Octets whose last one has no top bit are whole numbers. -/
theorem exists_eq_flatten (h : ∀ last ∈ octets.getLast?, last < 0x80) :
    ∃ numbers : List Bytes, octets = numbers.flatten ∧ ∀ number ∈ numbers, IsSubidentifier number := by
  induction octets with
  | nil => exact ⟨[], rfl, by simp⟩
  | cons octet rest ih =>
    have hrest : ∀ last ∈ rest.getLast?, last < 0x80 := by
      intro last hlast
      apply h
      rw [List.getLast?_cons, hlast]
      rfl
    obtain ⟨numbers, rfl, hnumbers⟩ := ih hrest
    by_cases hoctet : octet < 0x80
    · exact ⟨[octet] :: numbers, rfl,
        List.forall_mem_cons.2 ⟨isSubidentifier_singleton hoctet, hnumbers⟩⟩
    · cases numbers with
      | nil => exact absurd (h octet rfl) hoctet
      | cons number numbers =>
        obtain ⟨hnumber, hmore⟩ := List.forall_mem_cons.1 hnumbers
        exact ⟨(octet :: number) :: numbers, rfl,
          List.forall_mem_cons.2 ⟨hnumber.cons (UInt8.not_lt.1 hoctet), hmore⟩⟩

/-! ### Reading numbers in order -/

/-- The first number is read on its own, and only then the others. -/
theorem readNumbers_append {current : Nat} (h : IsSubidentifier number)
    (hstart : ¬(current = 0 ∧ number.head? = some 0x80)) (rest : Bytes) :
    readNumbers current (number ++ rest) =
      if 2 ^ 64 ≤ extend current number then .error .lengthOverflow
      else (readNumbers 0 rest).map (UInt64.ofNat (extend current number) :: ·) := by
  obtain ⟨front, last, rfl, hfront, hlast⟩ := h
  -- Past its first octet the number is not zero, and the fault at its start cannot come up again.
  induction front generalizing current with
  | nil =>
    have hvalue : extend current [last] = 128 * current + last.toNat % 128 := rfl
    have hlarge : 0x200000000000000 ≤ current ↔ 2 ^ 64 ≤ extend current [last] := by
      rw [hvalue]
      omega
    rw [List.nil_append, List.singleton_append, readNumbers, if_neg (by simpa using hstart),
      if_congr hlarge rfl rfl]
    simp only [if_pos hlast, hvalue]
  | cons octet front ih =>
    obtain ⟨hoctet, hmore⟩ := List.forall_mem_cons.1 hfront
    have hgroup : ¬(current = 0 ∧ octet = 0x80) := by simpa using hstart
    have hle := le_extend (128 * current + octet.toNat % 128) (front ++ [last])
    rw [← extend_cons] at hle
    rw [List.cons_append, List.cons_append, readNumbers, if_neg hgroup]
    by_cases hlarge : 0x200000000000000 ≤ current
    · have hoverflow : 2 ^ 64 ≤ extend current (octet :: (front ++ [last])) := by omega
      rw [if_pos hlarge, if_pos hoverflow]
    · have hnonzero := continued_ne_zero hoctet hgroup
      rw [if_neg hlarge]
      simp only [if_neg (UInt8.not_lt.2 hoctet)]
      exact ih (fun h => hnonzero h.1) hmore

theorem readNumbers_append_of_head {rest : Bytes} (h : number.head? = some 0x80) :
    readNumbers 0 (number ++ rest) = .error .invalidValue := by
  obtain ⟨more, rfl⟩ := List.head?_eq_some_iff.1 h
  rw [List.cons_append, readNumbers, if_pos ⟨rfl, rfl⟩]

theorem not_overflows_nil : ¬Overflows [] := by
  rintro ⟨before, number, after, h, -⟩
  simp at h

theorem overflows_cons : Overflows (number :: numbers) ↔
    number.head? ≠ some 0x80 ∧ (2 ^ 64 ≤ ofBase128 number ∨ Overflows numbers) := by
  constructor
  · rintro ⟨before, large, after, h, hlarge, hheads⟩
    cases before with
    | nil =>
      injection h with hnumber
      subst hnumber
      exact ⟨hheads number (by simp), .inl hlarge⟩
    | cons first before =>
      injection h with hnumber hnumbers
      subst hnumber
      obtain ⟨hhead, hmore⟩ := List.forall_mem_cons.1 hheads
      exact ⟨hhead, .inr ⟨before, large, after, hnumbers, hlarge, hmore⟩⟩
  · rintro ⟨hhead, hlarge | ⟨before, large, after, rfl, hlarge, hheads⟩⟩
    · exact ⟨[], number, numbers, rfl, hlarge, by simpa using hhead⟩
    · exact ⟨number :: before, large, after, rfl, hlarge, List.forall_mem_cons.2 ⟨hhead, hheads⟩⟩

theorem readNumbers_flatten_eq_lengthOverflow_iff
    (h : ∀ number ∈ numbers, IsSubidentifier number) :
    readNumbers 0 numbers.flatten = .error .lengthOverflow ↔ Overflows numbers := by
  induction numbers with
  | nil => simp [readNumbers, not_overflows_nil]
  | cons number numbers ih =>
    obtain ⟨hnumber, hnumbers⟩ := List.forall_mem_cons.1 h
    rw [List.flatten_cons, overflows_cons]
    by_cases hhead : number.head? = some 0x80
    · simp [readNumbers_append_of_head hhead, hhead]
    · rw [readNumbers_append hnumber (fun hstart => hhead hstart.2), ← ih hnumbers]
      by_cases hlarge : 2 ^ 64 ≤ extend 0 number
      · rw [if_pos hlarge]
        exact iff_of_true rfl ⟨hhead, .inl hlarge⟩
      · have hsmall : ¬2 ^ 64 ≤ ofBase128 number := hlarge
        rw [if_neg hlarge, map_eq_error_iff, or_iff_right hsmall, and_iff_right hhead]

theorem getLastD_lt_iff :
    octets.getLastD 0x80 < 0x80 ↔ ∃ last ∈ octets.getLast?, last < 0x80 := by
  rw [List.getLastD_eq_getLast?]
  cases octets.getLast? with
  | none => simp
  | some last => simp

/-- Contents are refused for a number that is too large exactly when they hold one and nothing up to
it is wrong. -/
theorem ofContents_eq_lengthOverflow_iff :
    ofContents octets = .error .lengthOverflow ↔
      (∃ last ∈ octets.getLast?, last < 0x80) ∧ Overflows (subidentifiers octets) := by
  rw [ofContents, ← getLastD_lt_iff]
  by_cases hlast : octets.getLastD 0x80 < 0x80
  · have hwhole : ∀ last ∈ octets.getLast?, last < 0x80 := by
      obtain ⟨last, hlast, hlt⟩ := getLastD_lt_iff.1 hlast
      intro last' hlast'
      cases hlast.symm.trans hlast'
      exact hlt
    obtain ⟨numbers, rfl, hnumbers⟩ := exists_eq_flatten hwhole
    rw [if_pos hlast, and_iff_right hlast, subidentifiers_flatten hnumbers,
      ← readNumbers_flatten_eq_lengthOverflow_iff hnumbers]
    cases readNumbers 0 numbers.flatten with
    | error e => rw [error_bind, Except.error.injEq, Except.error.injEq]
    | ok arcs =>
      cases arcs with
      | nil =>
        have hnone : (throw .invalidValue : Except DecodeError ObjectIdentifier) =
            .error .invalidValue := rfl
        simp [hnone]
      | cons shared arcs => simp
  · rw [if_neg hlast, Except.error.injEq]
    simp only [hlast, false_and, reduceCtorEq]

/-! ### Identifiers that can be had -/

/-- An identifier is made from arcs, read from octets, or well known. -/
inductive Obtainable : ObjectIdentifier → Prop
  | ofArcs {arcs oid} (h : ofArcs arcs = .ok oid) : Obtainable oid
  | read {input oid rest} (h : codec.read input = .ok oid rest) : Obtainable oid
  | ecPublicKey : Obtainable ecPublicKey
  | secp256r1 : Obtainable secp256r1
  | secp256k1 : Obtainable secp256k1

theorem Obtainable.wellFormed {oid : ObjectIdentifier} (h : Obtainable oid) : WellFormed oid.arcs := by
  cases h with
  | ofArcs h => exact constructible_iff.1 ⟨_, h⟩
  | read h => exact constructible_iff.1 (codec_faithful.read_eq_ok_iff.1 h).1
  | ecPublicKey => decide
  | secp256r1 => decide
  | secp256k1 => decide

/-- Words of 64 bits are enough.  An identifier, wherever it comes from, could be made from its arcs,
and writing it stays inside the buffer and loses no bit.  Reading never loses one either: numbers of
more than 64 bits are refused, unless a number up to them is refused already, and no other number is
refused for its size. -/
theorem fits_in_words :
    (∀ oid, Obtainable oid →
      2 ≤ oid.arcs.length ∧ ofArcs oid.arcs = .ok oid ∧
        (∀ first second rest, oid.arcs = first :: second :: rest →
          first.toNat * 40 + second.toNat < 2 ^ 64) ∧
        FixedWidth.contents oid = some (codec.contents oid)) ∧
    (∀ octets, FixedWidth.ofContents octets = some (ofContents octets)) ∧
    ∀ octets rest, octets.length < 2 ^ 32 →
      ((∃ left, codec.read (0x06 :: (Der.lengthOctets octets.length ++ (octets ++ rest))) =
          .error .lengthOverflow left) ↔
        (∃ last ∈ octets.getLast?, last < 0x80) ∧ Overflows (subidentifiers octets)) := by
  refine ⟨fun oid hoid => ?_, FixedWidth.ofContents_eq, fun octets rest hlength => ?_⟩
  · have hwell := hoid.wellFormed
    obtain ⟨first, second, rest, harcs⟩ := exists_of_wellFormed hwell
    refine ⟨?_, if_pos hwell, fun first second rest harcs => ?_, FixedWidth.contents_eq hwell⟩
    · rw [harcs]
      exact Nat.le_add_left 2 rest.length
    · rw [harcs] at hwell
      exact FixedWidth.shared_lt hwell
  · have hcontents : Der.contents codec.tag
        (0x06 :: (Der.lengthOctets octets.length ++ (octets ++ rest))) = .ok octets rest :=
      Der.contents_eq_ok_iff.2 ⟨hlength, rfl⟩
    have hcodec : codec.ofContents octets = ofContents octets := rfl
    rw [← ofContents_eq_lengthOverflow_iff, Der.Codec.read_of_contents hcontents, hcodec]
    cases ofContents octets with
    | ok oid => exact iff_of_false nofun nofun
    | error e => simp

/-- The largest shared number fills the buffer, and the next number is refused. -/
theorem fits_in_words_largest :
    FixedWidth.contents ⟨[2, 0xFFFFFFFFFFFFFFAF]⟩ =
      some [[0x81, 0xff, 0xff, 0xff, 0xff, 0xff, 0xff, 0xff, 0xff, 0x7f]] ∧
    ∃ left, codec.read [0x06, 0x0a, 0x82, 0x80, 0x80, 0x80, 0x80, 0x80, 0x80, 0x80, 0x80, 0x00] =
      .error .lengthOverflow left := by
  have hoid : Obtainable ⟨[2, 0xFFFFFFFFFFFFFFAF]⟩ :=
    .ofArcs (show ofArcs [2, 0xFFFFFFFFFFFFFFAF] = .ok _ from by decide)
  constructor
  · rw [(fits_in_words.1 _ hoid).2.2.2]
    decide +kernel
  · apply (fits_in_words.2.2 [0x82, 0x80, 0x80, 0x80, 0x80, 0x80, 0x80, 0x80, 0x80, 0x00] []
      (by decide)).2
    exact ⟨⟨0x00, by decide, by decide⟩, [],
      [0x82, 0x80, 0x80, 0x80, 0x80, 0x80, 0x80, 0x80, 0x80, 0x00], [], by decide, by decide,
      by decide⟩

end SigScript.ObjectIdentifier
