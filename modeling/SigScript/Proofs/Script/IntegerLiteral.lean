import Mathlib
import SigScript.Proofs.Text.IntegerLayers
import SigScript.Proofs.Text.IntegerLiteral
import SigScript.Script.Token

/-!
# Literals of integers

A literal stands for an integer exactly when it is a decimal integer, or a hexadecimal one behind `0x`
(`integer_literals_have_a_grammar`).  The other forms of literals make values of other types.  A text
that starts with `0x` is no decimal integer, so the order in which the two forms are tried does not
matter.  How the digits are reached, in one pass or in layers, does not matter either.
-/

namespace SigScript

namespace Token

/-- A decimal integer. -/
def IsDecimal (text : String) (z : Int) : Prop := IntegerLiteral.IsInteger 10 text.toList z

/-- A hexadecimal integer behind `0x`. -/
def IsHexadecimal (text : String) (z : Int) : Prop :=
  ∃ rest : String, text = "0x" ++ rest ∧ IntegerLiteral.IsInteger 16 rest.toList z

variable {text : String} {z : Int}

theorem decimal?_eq_some_iff : decimal? text.toList = some (.int z) ↔ IsDecimal text z := by
  rw [decimal?, Option.map_eq_some_iff, IsDecimal, ← IntegerLiteral.integer?_eq_some_iff (by decide)]
  simp

theorem hexadecimal?_eq_some_iff :
    hexadecimal? text.toList = some (.int z) ↔ IsHexadecimal text z := by
  rw [hexadecimal?, Option.map_eq_some_iff]
  constructor
  · rintro ⟨_, hz, ⟨⟩⟩
    obtain ⟨rest, hrest, hz⟩ := Option.bind_eq_some_iff.1 hz
    rw [payload?, List.isPrefixOf?_eq_some_iff_append_eq] at hrest
    refine ⟨String.ofList rest, ?_, ?_⟩
    · apply String.toList_injective
      rw [String.toList_append, @String.toList_ofList rest, hrest]
    · rw [String.toList_ofList]
      exact (IntegerLiteral.integer?_eq_some_iff (by decide)).1 hz
  · rintro ⟨rest, rfl, hz⟩
    refine ⟨z, Option.bind_eq_some_iff.2 ⟨rest.toList, ?_, ?_⟩, rfl⟩
    · rw [payload?, List.isPrefixOf?_eq_some_iff_append_eq, String.toList_append]
    · exact (IntegerLiteral.integer?_eq_some_iff (by decide)).2 hz

/-- A digit and a letter that is none are no decimal integer. -/
theorem decimal?_hexMark (rest : List Char) : decimal? ('0' :: 'x' :: rest) = none := by
  have hletter : Numeral.digitValue? 10 'x' = none := by decide
  rw [decimal?, IntegerLiteral.integer?_of_ne (by decide) (by decide), IntegerLiteral.natural?,
    IntegerLiteral.digits?_cons_cons (by decide), IntegerLiteral.digits?_cons_of_none hletter]
  simp

theorem decimal?_of_isHexadecimal {z' : Int} (h : IsHexadecimal text z') :
    decimal? text.toList = none := by
  obtain ⟨rest, rfl, -⟩ := h
  rw [String.toList_append]
  exact decimal?_hexMark rest.toList

theorem literal?_eq_int_iff :
    literal? text = some (.int z) ↔ IsDecimal text z ∨ IsHexadecimal text z := by
  constructor
  · intro h
    obtain ⟨form, hform, hz⟩ := List.exists_of_findSome?_eq_some h
    simp only [literalForms, List.mem_cons, List.not_mem_nil, or_false] at hform
    obtain rfl | rfl | rfl | rfl | rfl | rfl := hform
    · exact .inl (decimal?_eq_some_iff.1 hz)
    · exact .inr (hexadecimal?_eq_some_iff.1 hz)
    · obtain ⟨octets, -, hz⟩ := Option.map_eq_some_iff.1 hz
      cases hz
    · obtain ⟨rest, -, hz⟩ := Option.map_eq_some_iff.1 hz
      cases hz
    · obtain ⟨octets, -, hz⟩ := Option.bind_eq_some_iff.1 hz
      obtain ⟨sig, -, hz⟩ := Option.bind_eq_some_iff.1 hz
      cases hz
    · obtain ⟨octets, -, hz⟩ := Option.bind_eq_some_iff.1 hz
      obtain ⟨key, -, hz⟩ := Option.bind_eq_some_iff.1 hz
      cases hz
  · rintro (h | h)
    · rw [literal?, literalForms, List.findSome?_cons, decimal?_eq_some_iff.2 h]
    · rw [literal?, literalForms, List.findSome?_cons, decimal?_of_isHexadecimal h,
        List.findSome?_cons, hexadecimal?_eq_some_iff.2 h]

end Token

/-- A text is the literal of an integer exactly when it is a decimal integer, or a hexadecimal one
behind `0x`: a sign or none, and groups of digits with single underscores between them.  No text is
both.  A reader that checks the groups first and then leaves the underscores out gives the same
integers in every base. -/
theorem integer_literals_have_a_grammar (text : String) :
    (∀ z, Token.literal? text = some (.int z) ↔
      Token.IsDecimal text z ∨ Token.IsHexadecimal text z) ∧
    (¬∃ z z', Token.IsDecimal text z ∧ Token.IsHexadecimal text z') ∧
    ∀ base, IntegerLiteral.layeredInteger? base text.toList =
      IntegerLiteral.integer? base text.toList := by
  refine ⟨fun z => Token.literal?_eq_int_iff, ?_,
    fun base => IntegerLiteral.layeredInteger?_eq base text.toList⟩
  rintro ⟨z, z', hdecimal, hhex⟩
  have hnone := Token.decimal?_of_isHexadecimal hhex
  rw [Token.decimal?_eq_some_iff.2 hdecimal] at hnone
  cases hnone

-- The sign stands behind the mark, not in front of it.
example : Token.literal? "0x-f_F" = some (.int (-255)) := by decide +kernel
example : Token.literal? "-0xfF" = none := by decide +kernel

end SigScript
