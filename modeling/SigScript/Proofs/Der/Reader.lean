import Mathlib
import SigScript.Bytes.Lemmas
import SigScript.Der.Reader

/-!
# What a successful reader has consumed

A reader that succeeds has cut a part off the front of its input.  For each reader that part is a
function of the result: a length has one form only (`length_eq_ok_iff`), and so has a tagged value
(`contents_eq_ok_iff`).
-/

namespace SigScript.Der

variable {α β : Type} {input rest : Bytes}

/-! ### Steps in a row -/

theorem Reader.bind_eq_ok_iff {x : Reader α} {f : α → Reader β} {b : β} :
    (x >>= f) input = .ok b rest ↔
      ∃ a middle, x input = .ok a middle ∧ f a middle = .ok b rest := by
  have hbind : (x >>= f) input = EStateM.bind x f input := rfl
  rw [hbind, EStateM.bind]
  cases hx : x input with
  | ok a middle => simp
  | error e middle => simp

theorem Reader.bind_eq_error_iff {x : Reader α} {f : α → Reader β} {e : DecodeError} :
    (x >>= f) input = .error e rest ↔
      x input = .error e rest ∨ ∃ a middle, x input = .ok a middle ∧ f a middle = .error e rest := by
  have hbind : (x >>= f) input = EStateM.bind x f input := rfl
  rw [hbind, EStateM.bind]
  cases hx : x input with
  | ok a middle => simp
  | error e middle => simp

theorem Reader.pure_eq_ok_iff {a b : α} :
    (pure a : Reader α) input = .ok b rest ↔ a = b ∧ input = rest := by
  have hpure : (pure a : Reader α) input = .ok a input := rfl
  rw [hpure, EStateM.Result.ok.injEq]

theorem Reader.throw_ne_ok {e : DecodeError} {a : α} :
    (throw e : Reader α) input ≠ .ok a rest := by
  have hthrow : (throw e : Reader α) input = .error e input := rfl
  rw [hthrow]
  simp

/-! ### Octets -/

theorem take_eq_ok_iff {n : Nat} {octets : Bytes} :
    take n input = .ok octets rest ↔ octets.length = n ∧ input = octets ++ rest := by
  unfold take
  constructor
  · intro h
    split at h
    · rename_i hn
      cases h
      exact ⟨by simpa using hn, (List.take_append_drop n input).symm⟩
    · cases h
  · rintro ⟨rfl, rfl⟩
    simp

theorem octet_eq_ok_iff {b : UInt8} : octet input = .ok b rest ↔ input = b :: rest := by
  cases input with
  | nil => simp [octet]
  | cons first more => simp [octet]

theorem done_eq_ok_iff {u : Unit} : done input = .ok u rest ↔ input = [] ∧ rest = [] := by
  cases input with
  | nil => simp [done, eq_comm]
  | cons first more => simp [done]

theorem complete_eq_ok_iff {reader : Reader α} {a : α} :
    complete reader input = .ok a ↔ reader input = .ok a [] := by
  have hreader : ∀ v left, (do let v ← reader; done; return v : Reader α) input = .ok v left ↔
      reader input = .ok v [] ∧ left = [] := by
    intro v left
    simp only [Reader.bind_eq_ok_iff, done_eq_ok_iff, Reader.pure_eq_ok_iff]
    constructor
    · rintro ⟨v', middle, hread, u, middle', ⟨rfl, rfl⟩, rfl, rfl⟩
      exact ⟨hread, rfl⟩
    · rintro ⟨hread, rfl⟩
      exact ⟨v, [], hread, (), [], ⟨rfl, rfl⟩, rfl, rfl⟩
  unfold complete
  constructor
  · intro h
    split at h
    · rename_i v left heq
      cases h
      exact ((hreader _ _).1 heq).1
    · cases h
  · intro h
    rw [(hreader a []).2 ⟨h, rfl⟩]

theorem complete_of_error {reader : Reader α} {e : DecodeError}
    (h : reader input = .error e rest) : complete reader input = .error e := by
  have hreader : (do let v ← reader; done; return v : Reader α) input = .error e rest :=
    Reader.bind_eq_error_iff.2 (.inl h)
  rw [complete, hreader]

theorem complete_of_ne_nil {reader : Reader α} {a : α} (h : reader input = .ok a rest)
    (hrest : rest ≠ []) : complete reader input = .error (.trailingBytes rest.length) := by
  have hdone : done rest = .error (.trailingBytes rest.length) rest := by
    rw [done, if_neg (by simpa using hrest)]
  have hreader : (do let v ← reader; done; return v : Reader α) input =
      .error (.trailingBytes rest.length) rest :=
    Reader.bind_eq_error_iff.2 (.inr ⟨a, rest, h, Reader.bind_eq_error_iff.2 (.inl hdone)⟩)
  rw [complete, hreader]

/-! ### Lengths -/

theorem lengthOctets_of_lt {b : UInt8} (hb : b < 0x80) : lengthOctets b.toNat = [b] := by
  have hlt : b.toNat < 0x80 := UInt8.lt_iff_toNat_lt.1 hb
  rw [lengthOctets, if_pos hlt, UInt8.ofNat_toNat]

/-- Behind a first octet above `0x80` the length stands in as many octets as it needs. -/
theorem lengthOctets_of_le {n : Nat} (hn : 0x80 ≤ n) :
    lengthOctets n = UInt8.ofNat (0x80 + Bytes.byteLength n) :: Bytes.ofNat n := by
  rw [lengthOctets, if_neg (by omega)]

theorem length_eq_ok_of_lt {n : Nat} (hn : n < 2 ^ 32) (rest : Bytes) :
    length (lengthOctets n ++ rest) = .ok n rest := by
  by_cases hshort : n < 0x80
  · have hfirst : (UInt8.ofNat n).toNat = n :=
      UInt8.toNat_ofNat_of_lt' (show n < 256 by omega)
    have hlt : UInt8.ofNat n < 0x80 := by rwa [UInt8.lt_iff_toNat_lt, hfirst]
    rw [length, Reader.bind_eq_ok_iff]
    refine ⟨UInt8.ofNat n, rest, ?_, ?_⟩
    · rw [octet_eq_ok_iff, lengthOctets, if_pos hshort, List.singleton_append]
    · rw [if_pos hlt, Reader.pure_eq_ok_iff]
      exact ⟨hfirst, rfl⟩
  · have hcount : Bytes.byteLength n ≤ 4 := Bytes.byteLength_le_iff.2 hn
    have hne : Bytes.byteLength n ≠ 0 := by
      intro hzero
      have hlt := Bytes.byteLength_le_iff.1 hzero.le
      omega
    obtain ⟨b, bs, hoctets, hb⟩ := Bytes.exists_ofNat_eq_cons (show n ≠ 0 by omega)
    have hfirst : (UInt8.ofNat (0x80 + Bytes.byteLength n)).toNat = 0x80 + Bytes.byteLength n :=
      UInt8.toNat_ofNat_of_lt' (show 0x80 + Bytes.byteLength n < 256 by omega)
    have hnlt : ¬UInt8.ofNat (0x80 + Bytes.byteLength n) < 0x80 := by
      rw [UInt8.lt_iff_toNat_lt, hfirst]
      exact not_lt.2 (Nat.le_add_right _ _)
    rw [lengthOctets_of_le (by omega), length, Reader.bind_eq_ok_iff]
    refine ⟨_, Bytes.ofNat n ++ rest, octet_eq_ok_iff.2 rfl, ?_⟩
    simp only [if_neg hnlt, hfirst, Nat.add_sub_cancel_left]
    rw [if_neg hne, if_neg (by omega), Reader.bind_eq_ok_iff]
    refine ⟨Bytes.ofNat n, rest, take_eq_ok_iff.2 ⟨Bytes.length_ofNat n, rfl⟩, ?_⟩
    have hvalid : ¬((Bytes.ofNat n).headD 0 = 0 ∨ Bytes.toNat (Bytes.ofNat n) < 0x80) := by
      rw [Bytes.toNat_ofNat, hoctets]
      exact not_or.2 ⟨hb, hshort⟩
    rw [if_neg hvalid, Reader.pure_eq_ok_iff]
    exact ⟨Bytes.toNat_ofNat n, rfl⟩

theorem eq_of_length_eq_ok {n : Nat} (h : length input = .ok n rest) :
    n < 2 ^ 32 ∧ input = lengthOctets n ++ rest := by
  rw [length, Reader.bind_eq_ok_iff] at h
  obtain ⟨first, middle, hfirst, h⟩ := h
  rw [octet_eq_ok_iff] at hfirst
  subst hfirst
  have hbyte := first.toNat_lt
  split at h
  · rename_i hshort
    obtain ⟨rfl, rfl⟩ := Reader.pure_eq_ok_iff.1 h
    exact ⟨by omega, by rw [lengthOctets_of_lt hshort, List.singleton_append]⟩
  · rename_i hlong
    simp only at h
    split at h
    · exact absurd h Reader.throw_ne_ok
    split at h
    · exact absurd h Reader.throw_ne_ok
    rename_i hne hfour
    obtain ⟨octets, middle', htake, hvalue⟩ := Reader.bind_eq_ok_iff.1 h
    obtain ⟨hlength, rfl⟩ := take_eq_ok_iff.1 htake
    split at hvalue
    · exact absurd hvalue Reader.throw_ne_ok
    rename_i hvalid
    obtain ⟨rfl, rfl⟩ := Reader.pure_eq_ok_iff.1 hvalue
    obtain ⟨hhead, hlarge⟩ := not_or.1 hvalid
    cases octets with
    | nil => exact absurd rfl hhead
    | cons b bs =>
      have hb : b ≠ 0 := hhead
      have hcount : Bytes.byteLength (Bytes.toNat (b :: bs)) = first.toNat - 0x80 := by
        rw [Bytes.byteLength_toNat hb, ← hlength, List.length_cons]
      have hfits : Bytes.byteLength (Bytes.toNat (b :: bs)) ≤ 4 := by omega
      have hsum : 0x80 + (first.toNat - 0x80) = first.toNat := by omega
      refine ⟨Bytes.byteLength_le_iff.1 hfits, ?_⟩
      rw [lengthOctets_of_le (by omega), hcount, Bytes.ofNat_toNat hb, hsum, UInt8.ofNat_toNat]
      rfl

/-- A length below `2 ^ 32` has one form that is accepted, and no other length has any. -/
theorem length_eq_ok_iff {n : Nat} :
    length input = .ok n rest ↔ n < 2 ^ 32 ∧ input = lengthOctets n ++ rest := by
  constructor
  · exact eq_of_length_eq_ok
  · rintro ⟨hn, rfl⟩
    exact length_eq_ok_of_lt hn rest

/-! ### Tagged values -/

theorem contents_eq_ok_iff {tag : UInt8} {octets : Bytes} :
    contents tag input = .ok octets rest ↔
      octets.length < 2 ^ 32 ∧
        input = tag :: (lengthOctets octets.length ++ (octets ++ rest)) := by
  rw [contents, Reader.bind_eq_ok_iff]
  simp only [octet_eq_ok_iff]
  constructor
  · rintro ⟨actual, middle, rfl, h⟩
    split at h
    · rename_i htag
      obtain ⟨n, middle', hlength, htake⟩ := Reader.bind_eq_ok_iff.1 h
      obtain ⟨hn, rfl⟩ := length_eq_ok_iff.1 hlength
      obtain ⟨rfl, rfl⟩ := take_eq_ok_iff.1 htake
      exact ⟨hn, by rw [htag]⟩
    · exact absurd h Reader.throw_ne_ok
  · rintro ⟨hn, rfl⟩
    refine ⟨tag, _, rfl, ?_⟩
    rw [if_pos rfl, Reader.bind_eq_ok_iff]
    exact ⟨_, _, length_eq_ok_of_lt hn _, take_eq_ok_iff.2 ⟨rfl, rfl⟩⟩

end SigScript.Der
