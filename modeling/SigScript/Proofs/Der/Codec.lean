import Mathlib
import SigScript.Der.Codec
import SigScript.Proofs.Bytes.TwosComplement
import SigScript.Proofs.Der.Reader
import SigScript.Proofs.Failure

/-!
# Faithful codecs

A codec is faithful when contents are accepted exactly if they are the contents that are written for
the value read (`Codec.Faithful`).  Integers, natural numbers and bit strings are faithful, and pairs
of faithful codecs are.  From contents the property passes to whole encodings: octets are read as a
value exactly when they begin with its encoding (`Faithful.read_eq_ok_iff`).
-/

namespace SigScript.Der

namespace Codec

variable {α β : Type} {c : Codec α} {d : Codec β} {V : α → Prop} {W : β → Prop}

/-- The contents of a value are so short that four octets are enough for their length. -/
def Fits (c : Codec α) (v : α) : Prop := size (c.contents v) < 2 ^ 32

instance (c : Codec α) (v : α) : Decidable (c.Fits v) := inferInstanceAs (Decidable (_ < _))

/-- Contents that are not too long are read as a value exactly when they are written for it.  Only
values with the property `V` are ever read. -/
def Faithful (c : Codec α) (V : α → Prop) : Prop :=
  ∀ octets v, octets.length < 2 ^ 32 →
    (c.ofContents octets = .ok v ↔ V v ∧ octets = (c.contents v).flatten)

/-! ### Whole encodings -/

theorem encode_eq (c : Codec α) (v : α) :
    c.encode v = c.tag :: (lengthOctets (size (c.contents v)) ++ (c.contents v).flatten) := by
  simp [encode, pieces]

/-- When the contents are cut off, only they decide on the value. -/
theorem read_of_contents {input octets rest : Bytes}
    (h : Der.contents c.tag input = .ok octets rest) :
    c.read input =
      match c.ofContents octets with
      | .ok v => .ok v rest
      | .error e => .error e rest := by
  have hbind : c.read input = EStateM.bind (Der.contents c.tag) (fun octets =>
      match c.ofContents octets with
      | .ok v => pure v
      | .error e => throw e) input := rfl
  rw [hbind, EStateM.bind, h]
  cases hv : c.ofContents octets with
  | ok v =>
    simp only [hv]
    rfl
  | error e =>
    simp only [hv]
    rfl

theorem read_eq_ok_iff_contents {input rest : Bytes} {v : α} :
    c.read input = .ok v rest ↔
      ∃ octets, Der.contents c.tag input = .ok octets rest ∧ c.ofContents octets = .ok v := by
  constructor
  · intro h
    rw [read, Reader.bind_eq_ok_iff] at h
    obtain ⟨octets, middle, hcontents, h⟩ := h
    refine ⟨octets, ?_⟩
    cases hw : c.ofContents octets with
    | ok w =>
      rw [hw] at h
      obtain ⟨rfl, rfl⟩ := Reader.pure_eq_ok_iff.1 h
      exact ⟨hcontents, rfl⟩
    | error e =>
      rw [hw] at h
      exact absurd h Reader.throw_ne_ok
  · rintro ⟨octets, hcontents, hv⟩
    rw [read_of_contents hcontents, hv]

/-- Octets are read as a value exactly when they begin with its encoding. -/
theorem Faithful.read_eq_ok_iff (hc : c.Faithful V) {input rest : Bytes} {v : α} :
    c.read input = .ok v rest ↔ V v ∧ c.Fits v ∧ input = c.encode v ++ rest := by
  rw [read_eq_ok_iff_contents, encode_eq]
  simp only [contents_eq_ok_iff]
  constructor
  · rintro ⟨octets, ⟨hlength, rfl⟩, hoctets⟩
    obtain ⟨hv, rfl⟩ := (hc octets v hlength).1 hoctets
    rw [← size_eq] at hlength ⊢
    exact ⟨hv, hlength, by simp⟩
  · rintro ⟨hv, hfits, rfl⟩
    have hlength : (c.contents v).flatten.length < 2 ^ 32 := by rwa [← size_eq]
    refine ⟨(c.contents v).flatten, ⟨hlength, ?_⟩, (hc _ v hlength).2 ⟨hv, rfl⟩⟩
    rw [← size_eq]
    simp

theorem Faithful.decode_eq_ok_iff (hc : c.Faithful V) {input : Bytes} {v : α} :
    c.decode input = .ok v ↔ V v ∧ c.Fits v ∧ input = c.encode v := by
  rw [decode, complete_eq_ok_iff, hc.read_eq_ok_iff, List.append_nil]

/-- A value inside longer contents is not too long itself. -/
theorem fits_of_length_encode_lt {v : α} (h : (c.encode v).length < 2 ^ 32) : c.Fits v := by
  rw [encode_eq, List.length_cons, List.length_append, ← size_eq] at h
  rw [Fits]
  omega

/-! ### Sequences and other names for values -/

theorem flatten_contents_pair (c : Codec α) (d : Codec β) (v : α) (w : β) :
    ((Der.pair c d).contents (v, w)).flatten = c.encode v ++ d.encode w := by
  simp [Der.pair, encode]

theorem Faithful.pair (hc : c.Faithful V) (hd : d.Faithful W) :
    (Der.pair c d).Faithful fun v => V v.1 ∧ W v.2 := by
  rintro octets ⟨v, w⟩ hlength
  rw [flatten_contents_pair]
  change complete _ octets = _ ↔ _
  simp only [complete_eq_ok_iff, Reader.bind_eq_ok_iff, Reader.pure_eq_ok_iff, Prod.mk.injEq]
  constructor
  · rintro ⟨v', middle, hfirst, w', middle', hsecond, ⟨rfl, rfl⟩, rfl⟩
    obtain ⟨hv, -, rfl⟩ := hc.read_eq_ok_iff.1 hfirst
    obtain ⟨hw, -, rfl⟩ := hd.read_eq_ok_iff.1 hsecond
    exact ⟨⟨hv, hw⟩, by rw [List.append_nil]⟩
  · rintro ⟨⟨hv, hw⟩, rfl⟩
    rw [List.length_append] at hlength
    have hfits : c.Fits v := fits_of_length_encode_lt (by omega)
    have hfits' : d.Fits w := fits_of_length_encode_lt (by omega)
    exact ⟨v, d.encode w, hc.read_eq_ok_iff.2 ⟨hv, hfits, rfl⟩, w, [],
      hd.read_eq_ok_iff.2 ⟨hw, hfits', (List.append_nil _).symm⟩, ⟨rfl, rfl⟩, rfl⟩

theorem Faithful.map (hc : c.Faithful V) {f : α → β} {g : β → α} (hfg : ∀ w, f (g w) = w)
    (hgf : ∀ v, g (f v) = v) : (c.map f g).Faithful fun w => V (g w) := by
  intro octets w hlength
  change (c.ofContents octets).map f = .ok w ↔ V (g w) ∧ octets = (c.contents (g w)).flatten
  rw [← hc octets (g w) hlength, map_eq_ok_iff]
  constructor
  · rintro ⟨v, hv, rfl⟩
    rw [hgf, hv]
  · intro h
    exact ⟨g w, h, hfg w⟩

end Codec

/-! ### Integers and bit strings -/

theorem readInteger_eq_ok_iff {octets : Bytes} {z : Int} :
    readInteger octets = .ok z ↔ octets = Bytes.ofInt z := by
  rw [Bytes.eq_ofInt_iff]
  match octets with
  | [] => simp [readInteger]
  | [first] => simp [readInteger]
  | first :: second :: rest =>
    have hred : readInteger (first :: second :: rest) =
        (if Bytes.Redundant first second then .error .nonMinimalInteger
        else .ok (Bytes.toInt (first :: second :: rest)) : Except DecodeError Int) := rfl
    rw [hred]
    by_cases h : Bytes.Redundant first second
    · simp [h]
    · simp [h]

theorem integer_faithful : integer.Faithful fun _ => True := by
  intro octets z _
  have hflat : (integer.contents z).flatten = Bytes.ofInt z := by simp [integer]
  rw [hflat, true_and]
  exact readInteger_eq_ok_iff

/-- A natural number is written as the integer that it is, so a negative integer is none. -/
theorem natural_faithful : natural.Faithful fun _ => True := by
  intro octets n hlength
  have hflat : (natural.contents n).flatten = Bytes.ofInt n := by simp [natural, integer]
  rw [hflat, true_and]
  change (readInteger octets >>= fun z => if z < 0 then throw .invalidValue else return z.toNat) =
    .ok n ↔ _
  rw [bind_eq_ok_iff]
  constructor
  · rintro ⟨z, hz, h⟩
    split at h
    · cases h
    · cases h
      rw [readInteger_eq_ok_iff.1 hz]
      congr 1
      omega
  · intro h
    refine ⟨n, readInteger_eq_ok_iff.2 h, ?_⟩
    rw [if_neg (by omega)]
    rfl

theorem bitString_faithful : bitString.Faithful fun _ => True := by
  intro octets v _
  have hflat : (bitString.contents v).flatten = 0 :: v := by simp [bitString]
  rw [hflat, true_and]
  cases octets with
  | nil => simp [bitString]
  | cons unused rest =>
    by_cases h : unused = 0
    · simp [bitString, h]
    · simp [bitString, h]

end SigScript.Der
