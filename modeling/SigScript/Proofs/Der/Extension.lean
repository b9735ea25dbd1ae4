import Mathlib
import SigScript.Proofs.Der.Canonical

/-!
# Input that is cut short or goes on

A reader decides on the octets that it has consumed.  Octets behind them change neither its success
nor its failure, unless it failed because the input ended (`Persistent`); steps in a row keep this,
and so it holds of all codecs (`Codec.persistent_read`).  It follows that an encoding that is cut
short ends too early, wherever the cut is (`Persistent.error_of_append`), and with that every encoding
shows by itself where it ends (`encodings_are_self_delimiting`).
-/

namespace SigScript.Der

variable {α β : Type}

/-- More input behind changes neither a success nor a failure, except where it was the end of the
input that failed. -/
structure Persistent (reader : Reader α) : Prop where
  ok_append : ∀ input more a rest, reader input = .ok a rest →
    reader (input ++ more) = .ok a (rest ++ more)
  error_append : ∀ input more e rest, reader input = .error e rest → e ≠ .unexpectedEnd →
    reader (input ++ more) = .error e (rest ++ more)

namespace Persistent

/-! ### Steps -/

theorem pure (a : α) : Persistent (Pure.pure a : Reader α) where
  ok_append input more b rest h := by
    obtain ⟨rfl, rfl⟩ := Reader.pure_eq_ok_iff.1 h
    rfl
  error_append _ _ _ _ h := by cases h

theorem throw (e : DecodeError) : Persistent (MonadExcept.throw e : Reader α) where
  ok_append _ _ _ _ h := absurd h Reader.throw_ne_ok
  error_append _ _ _ _ h _ := by
    cases h
    rfl

theorem bind {x : Reader α} {f : α → Reader β} (hx : Persistent x) (hf : ∀ a, Persistent (f a)) :
    Persistent (x >>= f) where
  ok_append input more b rest h := by
    obtain ⟨a, middle, hfirst, hsecond⟩ := Reader.bind_eq_ok_iff.1 h
    exact Reader.bind_eq_ok_iff.2 ⟨a, middle ++ more, hx.ok_append _ _ _ _ hfirst,
      (hf a).ok_append _ _ _ _ hsecond⟩
  error_append input more e rest h he := by
    apply Reader.bind_eq_error_iff.2
    obtain hfirst | ⟨a, middle, hfirst, hsecond⟩ := Reader.bind_eq_error_iff.1 h
    · exact .inl (hx.error_append _ _ _ _ hfirst he)
    · exact .inr ⟨a, middle ++ more, hx.ok_append _ _ _ _ hfirst,
        (hf a).error_append _ _ _ _ hsecond he⟩

theorem octet : Persistent octet where
  ok_append input more b rest h := by
    rw [octet_eq_ok_iff] at h ⊢
    rw [h, List.cons_append]
  error_append input more e rest h he := by
    cases input with
    | nil =>
      cases h
      exact absurd rfl he
    | cons b input => cases h

theorem take (n : Nat) : Persistent (take n) where
  ok_append input more octets rest h := by
    rw [take_eq_ok_iff] at h ⊢
    rw [h.2, List.append_assoc]
    exact ⟨h.1, rfl⟩
  error_append input more e rest h he := by
    unfold Der.take at h
    split at h
    · cases h
    · cases h
      exact absurd rfl he

/-! ### Values -/

theorem length : Persistent length := by
  refine octet.bind fun first => ?_
  split
  · exact pure _
  · simp only
    split
    · exact throw _
    split
    · exact throw _
    · refine (take _).bind fun octets => ?_
      split
      · exact throw _
      · exact pure _

theorem contents (tag : UInt8) : Persistent (contents tag) := by
  refine octet.bind fun actual => ?_
  split
  · exact length.bind take
  · exact throw _

/-- What is read completely is not complete without its end. -/
theorem error_of_append {reader : Reader α} (h : Persistent reader) {front more : Bytes} {a : α}
    (hok : reader (front ++ more) = .ok a []) (hmore : more ≠ []) :
    ∃ rest, reader front = .error .unexpectedEnd rest := by
  cases hfront : reader front with
  | ok b rest =>
    rw [h.ok_append _ more _ _ hfront] at hok
    injection hok with hvalue hrest
    exact absurd (List.append_eq_nil_iff.1 hrest).2 hmore
  | error e rest =>
    by_cases he : e = .unexpectedEnd
    · exact ⟨rest, by rw [he]⟩
    · rw [h.error_append _ more _ _ hfront he] at hok
      cases hok

end Persistent

/-! ### Codecs -/

namespace Codec

/-- What is wrong with the contents does not depend on the octets behind them. -/
theorem persistent_read (c : Codec α) : Persistent c.read := by
  refine (Persistent.contents c.tag).bind fun octets => ?_
  split
  · exact Persistent.pure _
  · exact Persistent.throw _

/-- An encoding shows by itself where it ends.  Cut short it ends too early, octets behind it are
counted, and every other failure stays the same whatever follows. -/
structure SelfDelimiting (c : Codec α) (V : α → Prop) : Prop where
  decode_of_isPrefix : ∀ v front, V v → c.Fits v → front <+: c.encode v → front ≠ c.encode v →
    c.decode front = .error .unexpectedEnd
  decode_encode_append : ∀ v more, V v → c.Fits v → more ≠ [] →
    c.decode (c.encode v ++ more) = .error (.trailingBytes more.length)
  read_append : ∀ input more e rest, c.read input = .error e rest → e ≠ .unexpectedEnd →
    c.read (input ++ more) = .error e (rest ++ more)

theorem Canonical.selfDelimiting {c : Codec α} {V : α → Prop} (hc : c.Canonical V) :
    c.SelfDelimiting V where
  decode_of_isPrefix v front hv hfits hfront hne := by
    obtain ⟨more, hmore⟩ := hfront
    have hread := hc.read_encode_append v [] hv hfits
    rw [List.append_nil, ← hmore] at hread
    have hcut : more ≠ [] := by
      rintro rfl
      exact hne (by rw [← hmore, List.append_nil])
    obtain ⟨rest, herror⟩ := c.persistent_read.error_of_append hread hcut
    exact complete_of_error herror
  decode_encode_append v more hv hfits hmore :=
    complete_of_ne_nil (hc.read_encode_append v more hv hfits) hmore
  read_append := c.persistent_read.error_append

end Codec

end SigScript.Der

namespace SigScript

open Der

/-- Encodings of all types show where they end: a proper prefix ends too early, octets behind are
trailing octets, and no failure but the early end depends on what follows. -/
theorem encodings_are_self_delimiting :
    integer.SelfDelimiting (fun _ => True) ∧ natural.SelfDelimiting (fun _ => True) ∧
    bitString.SelfDelimiting (fun _ => True) ∧
    ObjectIdentifier.codec.SelfDelimiting ObjectIdentifier.Constructible ∧
    Signature.codec.SelfDelimiting (fun _ => True) ∧
    PublicKeyInfo.codec.SelfDelimiting PublicKeyInfo.Constructible :=
  ⟨integer_faithful.canonical.selfDelimiting, natural_faithful.canonical.selfDelimiting,
    bitString_faithful.canonical.selfDelimiting,
    ObjectIdentifier.codec_faithful.canonical.selfDelimiting,
    Signature.codec_faithful.canonical.selfDelimiting,
    PublicKeyInfo.codec_faithful.canonical.selfDelimiting⟩

/-- A signature that is cut inside its second integer, one with an octet behind it, and a second
integer that is not minimal, which no octets behind the signature can mend. -/
theorem encodings_are_self_delimiting_signature :
    Signature.codec.decode [0x30, 0x06, 0x02, 0x01, 0x01, 0x02, 0x01] = .error .unexpectedEnd ∧
    Signature.codec.decode ([0x30, 0x06, 0x02, 0x01, 0x01, 0x02, 0x01, 0x02] ++ [0x00]) =
      .error (.trailingBytes 1) ∧
    ∀ more, Signature.codec.read ([0x30, 0x07, 0x02, 0x01, 0x01, 0x02, 0x02, 0x00, 0x02] ++ more) =
      .error .nonMinimalInteger more := by
  have hcodec := encodings_are_self_delimiting.2.2.2.2.1
  have hfits : Signature.codec.Fits ⟨1, 2⟩ := by decide +kernel
  have hencode : Signature.codec.encode ⟨1, 2⟩ =
      [0x30, 0x06, 0x02, 0x01, 0x01, 0x02, 0x01, 0x02] := by decide +kernel
  refine ⟨?_, ?_, fun more => ?_⟩
  · exact hcodec.decode_of_isPrefix ⟨1, 2⟩ _ trivial hfits (by rw [hencode]; decide)
      (by rw [hencode]; decide)
  · rw [← hencode]
    exact hcodec.decode_encode_append ⟨1, 2⟩ [0x00] trivial hfits (by decide)
  · exact hcodec.read_append _ more .nonMinimalInteger [] rfl (by decide)

end SigScript
