import Mathlib
import SigScript.Text.Blank

/-!
# Words between gaps

A text is cut at every gap (`words_append_gap`), and nothing is cut out of a word (`words_of_isWord`).
So words that are written one after the other, with any blanks between them, are found again
(`words_spaced`).
-/

namespace SigScript.Text

/-- At least one character, and no blanks. -/
def IsWord (word : String) : Prop := word.toList ≠ [] ∧ ∀ c ∈ word.toList, ¬isBlank c

/-- At least one character, and nothing but blanks. -/
def IsGap (gap : String) : Prop := gap.toList ≠ [] ∧ ∀ c ∈ gap.toList, isBlank c

/-- The words one after the other, with `gap n` in front of the last `n` of them. -/
def spaced (gap : Nat → String) : List String → String
  | [] => ""
  | [word] => word
  | word :: rest => word ++ gap rest.length ++ spaced gap rest

theorem spaced_const (gap : String) (ws : List String) :
    spaced (fun _ => gap) ws = gap.intercalate ws := by
  induction ws with
  | nil => rw [spaced, String.intercalate_nil]
  | cons w ws ih =>
    rcases ws with _ | ⟨w', ws⟩
    · rw [spaced, String.intercalate_singleton]
    · rw [spaced, ih, String.intercalate_cons_cons]
      simp

/-! ### Pieces -/

section Pieces

variable {isSeparator : Char → Bool} {front : List Char} {c : Char}

theorem pieces_of_forall_not (h : ∀ c ∈ front, ¬isSeparator c) :
    pieces isSeparator front = [front] := by
  induction front with
  | nil => rfl
  | cons c front ih =>
    obtain ⟨hc, hfront⟩ := List.forall_mem_cons.1 h
    simp [pieces, hc, ih hfront]

theorem pieces_append_cons (hc : isSeparator c) (front rest : List Char) :
    pieces isSeparator (front ++ c :: rest) =
      pieces isSeparator front ++ pieces isSeparator rest := by
  induction front with
  | nil => simp [pieces, hc]
  | cons c' front ih =>
    rw [List.cons_append, pieces, pieces, ih]
    split
    · rfl
    · obtain ⟨piece, more, h⟩ := List.exists_cons_of_ne_nil (pieces_ne_nil isSeparator front)
      rw [h]
      rfl

end Pieces

/-! ### Words -/

variable {word gap : String}

theorem words_append_cons {c : Char} (hc : isBlank c) (front rest : List Char) :
    words (String.ofList (front ++ c :: rest)) =
      words (String.ofList front) ++ words (String.ofList rest) := by
  simp [words, pieces_append_cons hc]

theorem words_append_blanks {blanks : List Char} (h : ∀ c ∈ blanks, isBlank c) (rest : List Char) :
    words (String.ofList (blanks ++ rest)) = words (String.ofList rest) := by
  induction blanks with
  | nil => rfl
  | cons c blanks ih =>
    obtain ⟨hc, hblanks⟩ := List.forall_mem_cons.1 h
    have hcut := words_append_cons hc [] (blanks ++ rest)
    rw [ih hblanks] at hcut
    exact hcut

/-- A gap cuts a text in two. -/
theorem words_append_gap (h : IsGap gap) (front rest : String) :
    words (front ++ gap ++ rest) = words front ++ words rest := by
  obtain ⟨hne, hblanks⟩ := h
  obtain ⟨c, blanks, hgap⟩ := List.exists_cons_of_ne_nil hne
  rw [hgap] at hblanks
  obtain ⟨hc, hblanks⟩ := List.forall_mem_cons.1 hblanks
  have htext : front ++ gap ++ rest =
      String.ofList (front.toList ++ c :: (blanks ++ rest.toList)) := by
    apply String.toList_injective
    simp [hgap]
  rw [htext, words_append_cons hc, words_append_blanks hblanks, String.ofList_toList,
    String.ofList_toList]

theorem words_of_isWord (h : IsWord word) : words word = [word] := by
  obtain ⟨hne, hblanks⟩ := h
  simp [words, pieces_of_forall_not hblanks, hne]

theorem words_spaced {gaps : Nat → String} (hgaps : ∀ n, IsGap (gaps n)) {ws : List String}
    (hws : ∀ w ∈ ws, IsWord w) : words (spaced gaps ws) = ws := by
  induction ws with
  | nil => rfl
  | cons w ws ih =>
    obtain ⟨hw, hws⟩ := List.forall_mem_cons.1 hws
    rcases ws with _ | ⟨w', ws⟩
    · exact words_of_isWord hw
    · rw [spaced, words_append_gap (hgaps _), words_of_isWord hw, ih hws, List.singleton_append]
      simp

end SigScript.Text
