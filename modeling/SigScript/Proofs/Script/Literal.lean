import Mathlib
import SigScript.Proofs.Der.Canonical
import SigScript.Proofs.Text.Base64
import SigScript.Proofs.Text.Numeral
import SigScript.Proofs.Text.Words
import SigScript.Script.Token

/-!
# Literals of values

The text of a value is a literal of that value, unless the value is a boolean or the contents of its
encoding are too long (`literal?_text_iff`).  The marks keep the forms apart: no text with one of them
fits a form that is tried before.  In every case the text is a single word (`Value.isWord_text`).
Integers and texts in UTF-8 have other literals as well, but a literal with one of the marks is the text
of its value (`Token.text_eq_of_literal?`).
-/

namespace SigScript

/-! ### Characters of literals -/

theorem Base64.not_isBlank_digitChar (v : Nat) : ¬Text.isBlank (digitChar v) := by
  have hchar : ∀ v : Fin 64, ¬Text.isBlank (digitChar v) := by decide
  by_cases hv : v < 64
  · exact hchar ⟨v, hv⟩
  · have hlast : digitChar v = '/' := by
      unfold digitChar
      rw [if_neg (by omega), if_neg (by omega), if_neg (by omega), if_neg (by omega)]
    rw [hlast]
    decide

theorem Base64.not_isBlank_of_mem_encode {octets : Bytes} :
    ∀ c ∈ encode octets, ¬Text.isBlank c := by
  have hpad : ¬Text.isBlank '=' := by decide
  fun_induction encode octets with
  | case1 => simp
  | case2 => simp [not_isBlank_digitChar, hpad]
  | case3 => simp [not_isBlank_digitChar, hpad]
  | case4 a b c rest ih => simpa [not_isBlank_digitChar] using ih

namespace Value

/-! ### Texts are words -/

theorem toList_marked (mark : String) (octets : Bytes) :
    (marked mark octets).toList = mark.toList ++ Base64.encode octets := by
  simp [marked]

theorem isWord_marked {mark : String} (hmark : Text.IsWord mark) (octets : Bytes) :
    Text.IsWord (marked mark octets) := by
  rw [Text.IsWord, toList_marked]
  refine ⟨by simp [hmark.1], ?_⟩
  intro c hc
  rw [List.mem_append] at hc
  exact hc.elim (hmark.2 c) (Base64.not_isBlank_of_mem_encode c)

theorem isWord_mark : ∀ mark ∈ [bytesMark, signatureMark, publicKeyMark], Text.IsWord mark := by
  simp [Text.IsWord, bytesMark, signatureMark, publicKeyMark]
  decide

theorem isWord_text (v : Value) : Text.IsWord v.text := by
  cases v with
  | int z =>
    rw [Text.IsWord, text, Numeral.decimalInt, String.toList_ofList]
    exact ⟨Numeral.renderInt_ne_nil 10 z,
      Numeral.not_isBlank_of_mem_renderInt (by decide) (by decide) z⟩
  | bool b =>
    cases b <;>
    · simp [Text.IsWord, text]
      decide
  | bytes octets => exact isWord_marked (isWord_mark _ (by simp)) octets
  | signature sig => exact isWord_marked (isWord_mark _ (by simp)) _
  | publicKey key => exact isWord_marked (isWord_mark _ (by simp)) _

/-- Nothing keeps the octets of the value from being read again: the contents of its encoding are not
too long, and its object identifiers are constructible. -/
def Readable : Value → Prop
  | signature sig => Signature.codec.Fits sig
  | publicKey key => key.Constructible ∧ PublicKeyInfo.codec.Fits key
  | _ => True

end Value

namespace Token

open Value

variable {text mark : String} {octets : Bytes} {v : Value}

/-! ### Texts with a mark -/

theorem octets?_append (mark : String) (cs : List Char) :
    octets? mark (mark.toList ++ cs) = Base64.decode? cs := by
  have hpayload : payload? mark (mark.toList ++ cs) = some cs := by
    rw [payload?, List.isPrefixOf?_eq_some_iff_append_eq]
  rw [octets?, hpayload, Option.bind_some]

/-- A mark that starts with a letter is neither a digit nor a sign. -/
theorem decimal?_append {c : Char} {rest : List Char} (hmark : mark.toList = c :: rest)
    (hc : c ∈ ['b', 's', 'p']) (cs : List Char) : decimal? (mark.toList ++ cs) = none := by
  have hvalue : ∀ c ∈ ['b', 's', 'p'],
      Numeral.digitValue? 10 c = none ∧ c ≠ '-' ∧ c ≠ '+' := by simp [Numeral.digitValue?]
  obtain ⟨hdigit, hminus, hplus⟩ := hvalue c hc
  rw [hmark, List.cons_append, decimal?,
    IntegerLiteral.integer?_cons_of_none hdigit hminus hplus, Option.map_none]

/-- A text that fits no other form behind its mark fits the one that is left or none. -/
theorem literal?_append {form : List Char → Option Value}
    {front back : List (List Char → Option Value)}
    (hforms : literalForms = decimal? :: front ++ form :: back) {c : Char} {rest : List Char}
    (hmark : mark.toList = c :: rest) (hc : c ∈ ['b', 's', 'p']) (cs : List Char)
    (hothers : ∀ other ∈ front ++ back, other (mark.toList ++ cs) = none) :
    literal? (mark ++ String.ofList cs) = form (mark.toList ++ cs) := by
  have hfront := List.findSome?_eq_none_iff.2 fun other hother =>
    hothers other (List.mem_append_left back hother)
  have hback := List.findSome?_eq_none_iff.2 fun other hother =>
    hothers other (List.mem_append_right front hother)
  rw [literal?, String.toList_append, String.toList_ofList, hforms, List.findSome?_append,
    List.findSome?_cons, decimal?_append hmark hc, hfront, Option.none_or, List.findSome?_cons,
    hback]
  cases form (mark.toList ++ cs) <;> rfl

theorem literal?_bytesMark (cs : List Char) :
    literal? (bytesMark ++ String.ofList cs) = (Base64.decode? cs).map .bytes := by
  have hforms : literalForms =
      decimal? :: [hexadecimal?] ++ bytes? :: [utf8?, signature?, publicKey?] := rfl
  have hothers : ∀ other ∈ [hexadecimal?, utf8?, signature?, publicKey?],
      other (bytesMark.toList ++ cs) = none := by
    simp only [List.forall_mem_cons]
    exact ⟨rfl, rfl, rfl, rfl, by simp⟩
  rw [literal?_append hforms (show bytesMark.toList = 'b' :: _ from rfl) (by decide) cs hothers,
    bytes?, octets?_append]

theorem literal?_signatureMark (cs : List Char) :
    literal? (signatureMark ++ String.ofList cs) =
      (Base64.decode? cs).bind fun octets =>
        (Signature.codec.decode octets).toOption.map .signature := by
  have hforms : literalForms =
      decimal? :: [hexadecimal?, bytes?, utf8?] ++ signature? :: [publicKey?] := rfl
  have hothers : ∀ other ∈ [hexadecimal?, bytes?, utf8?, publicKey?],
      other (signatureMark.toList ++ cs) = none := by
    simp only [List.forall_mem_cons]
    exact ⟨rfl, rfl, rfl, rfl, by simp⟩
  rw [literal?_append hforms (show signatureMark.toList = 's' :: _ from rfl) (by decide) cs hothers,
    signature?, octets?_append]
  simp only [Option.map_eq_bind]
  rfl

theorem literal?_publicKeyMark (cs : List Char) :
    literal? (publicKeyMark ++ String.ofList cs) =
      (Base64.decode? cs).bind fun octets =>
        (PublicKeyInfo.codec.decode octets).toOption.map .publicKey := by
  have hforms : literalForms =
      decimal? :: [hexadecimal?, bytes?, utf8?, signature?] ++ publicKey? :: [] := rfl
  have hothers : ∀ other ∈ [hexadecimal?, bytes?, utf8?, signature?],
      other (publicKeyMark.toList ++ cs) = none := by
    simp only [List.forall_mem_cons]
    exact ⟨rfl, rfl, rfl, rfl, by simp⟩
  rw [literal?_append hforms (show publicKeyMark.toList = 'p' :: _ from rfl) (by decide) cs hothers,
    publicKey?, octets?_append]
  simp only [Option.map_eq_bind]
  rfl

/-! ### Literals and the texts of values -/

theorem literal?_text (hv : v.Readable) (hbool : v.kind ≠ .bool) : literal? v.text = some v := by
  cases v with
  | int z =>
    have hdecimal : decimal? (Numeral.renderInt 10 z) = some (.int z) := by
      rw [decimal?, IntegerLiteral.integer?_renderInt (by decide) (by decide), Option.map_some]
    rw [literal?, Value.text, Numeral.decimalInt, String.toList_ofList, literalForms,
      List.findSome?_cons, hdecimal]
  | bool b => exact absurd rfl hbool
  | bytes octets => rw [Value.text, marked, literal?_bytesMark, Base64.decode?_encode, Option.map_some]
  | signature sig =>
    have hdecode := Signature.codec_faithful.decode_eq_ok_iff.2 ⟨trivial, hv, rfl⟩
    rw [Value.text, marked, literal?_signatureMark, Base64.decode?_encode, Option.bind_some, hdecode]
    rfl
  | publicKey key =>
    have hdecode := PublicKeyInfo.codec_faithful.decode_eq_ok_iff.2 ⟨hv.1, hv.2, rfl⟩
    rw [Value.text, marked, literal?_publicKeyMark, Base64.decode?_encode, Option.bind_some, hdecode]
    rfl

/-- No literal stands for a boolean, and what a literal decodes can be encoded again. -/
theorem readable_of_literal? (h : literal? text = some v) : v.Readable ∧ v.kind ≠ .bool := by
  have hmap : ∀ {α : Type} {o : Option α} {f : α → Value}, o.map f = some v →
      (∀ a, (f a).Readable ∧ (f a).kind ≠ .bool) → v.Readable ∧ v.kind ≠ .bool := by
    rintro α o f hv hf
    obtain ⟨a, -, rfl⟩ := Option.map_eq_some_iff.1 hv
    exact hf a
  obtain ⟨form, hform, hv⟩ := List.exists_of_findSome?_eq_some h
  simp only [literalForms, List.mem_cons, List.not_mem_nil, or_false] at hform
  rcases hform with rfl | rfl | rfl | rfl | rfl | rfl
  · exact hmap hv fun z => ⟨trivial, nofun⟩
  · exact hmap hv fun z => ⟨trivial, nofun⟩
  · exact hmap hv fun octets => ⟨trivial, nofun⟩
  · exact hmap hv fun rest => ⟨trivial, nofun⟩
  · obtain ⟨octets, -, hv⟩ := Option.bind_eq_some_iff.1 hv
    obtain ⟨sig, hsig, hv⟩ := Option.bind_eq_some_iff.1 hv
    cases hv
    have hdecode := Signature.codec_faithful.decode_eq_ok_iff.1 (toOption_eq_some_iff.1 hsig)
    exact ⟨hdecode.2.1, nofun⟩
  · obtain ⟨octets, -, hv⟩ := Option.bind_eq_some_iff.1 hv
    obtain ⟨key, hkey, hv⟩ := Option.bind_eq_some_iff.1 hv
    cases hv
    have hdecode := PublicKeyInfo.codec_faithful.decode_eq_ok_iff.1 (toOption_eq_some_iff.1 hkey)
    exact ⟨⟨hdecode.1, hdecode.2.1⟩, nofun⟩

/-- A text is the literal of the value that it shows exactly when there is such a literal at all. -/
theorem literal?_text_iff : literal? v.text = some v ↔ v.Readable ∧ v.kind ≠ .bool :=
  ⟨readable_of_literal?, fun h => literal?_text h.1 h.2⟩

/-! ### One marked text for each value -/

/-- The text starts with the mark of a byte string in base64, of a signature or of a public key. -/
def HasMark (text : String) : Prop :=
  ∃ mark ∈ [bytesMark, signatureMark, publicKeyMark], ∃ payload, text = mark ++ payload

theorem text_eq_of_literal? (hmark : HasMark text) (h : literal? text = some v) :
    v.text = text := by
  obtain ⟨mark, hmark, payload, rfl⟩ := hmark
  obtain ⟨cs, rfl⟩ : ∃ cs, payload = String.ofList cs := ⟨payload.toList, String.ofList_toList.symm⟩
  simp only [List.mem_cons, List.not_mem_nil, or_false] at hmark
  rcases hmark with rfl | rfl | rfl
  · rw [literal?_bytesMark] at h
    obtain ⟨octets, hoctets, rfl⟩ := Option.map_eq_some_iff.1 h
    rw [Base64.decode?_eq_some_iff.1 hoctets, Value.text, marked]
  · rw [literal?_signatureMark] at h
    obtain ⟨octets, hoctets, h⟩ := Option.bind_eq_some_iff.1 h
    obtain ⟨sig, hsig, rfl⟩ := Option.map_eq_some_iff.1 h
    have hdecode := Signature.codec_faithful.decode_eq_ok_iff.1 (toOption_eq_some_iff.1 hsig)
    rw [Base64.decode?_eq_some_iff.1 hoctets, hdecode.2.2, Value.text, marked]
  · rw [literal?_publicKeyMark] at h
    obtain ⟨octets, hoctets, h⟩ := Option.bind_eq_some_iff.1 h
    obtain ⟨key, hkey, rfl⟩ := Option.map_eq_some_iff.1 h
    have hdecode := PublicKeyInfo.codec_faithful.decode_eq_ok_iff.1 (toOption_eq_some_iff.1 hkey)
    rw [Base64.decode?_eq_some_iff.1 hoctets, hdecode.2.2, Value.text, marked]

end Token

/-- A literal with a mark is the text of the value that it stands for, so no other literal with a mark
stands for the same value. -/
theorem marked_literal_is_canonical {text : String} {v : Value} (hmark : Token.HasMark text)
    (h : Token.literal? text = some v) :
    v.text = text ∧
      ∀ other, Token.HasMark other → Token.literal? other = some v → other = text := by
  have htext := Token.text_eq_of_literal? hmark h
  refine ⟨htext, ?_⟩
  intro other hother hvalue
  rw [← Token.text_eq_of_literal? hother hvalue, htext]

/-- The signature with the components 1 and 5 has a single literal, of twelve characters behind its
mark. -/
theorem marked_literal_is_canonical_signature :
    Token.literal? "sig:MAYCAQECAQU=" = some (.signature ⟨1, 5⟩) ∧
    (Value.signature ⟨1, 5⟩).text = "sig:MAYCAQECAQU=" ∧
    ∀ other, Token.HasMark other → Token.literal? other = some (.signature ⟨1, 5⟩) →
      other = "sig:MAYCAQECAQU=" := by
  have hmark : Token.HasMark "sig:MAYCAQECAQU=" :=
    ⟨Value.signatureMark, by simp, "MAYCAQECAQU=", by decide⟩
  have hliteral : Token.literal? "sig:MAYCAQECAQU=" = some (.signature ⟨1, 5⟩) := by
    decide +kernel
  exact ⟨hliteral, marked_literal_is_canonical hmark hliteral⟩

end SigScript
