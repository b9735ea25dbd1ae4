import Mathlib
import SigScript.Proofs.Text.Words

/-!
# Words of lines

The words of the trimmed lines of a text, one line after the other, are the words of the text
(`flatMap_words_trimmedLines`): a cut at the line feeds can be made before the cut at all blanks
(`pieces_eq_flatMap`), and blanks at the ends of a piece cut nothing off its words (`words_trim`).  So
it does not matter either whether a carriage return in front of a line feed belongs to the end of the
line (`lines`) or is trimmed with the other blanks (`trimmedLines_eq`).
-/

namespace SigScript.Text

/-! ### Cuts in two steps -/

theorem pieces_cons_of_not {isSeparator : Char → Bool} {c : Char} {cs piece : List Char}
    {more : List (List Char)} (hc : ¬isSeparator c) (h : pieces isSeparator cs = piece :: more) :
    pieces isSeparator (c :: cs) = (c :: piece) :: more := by
  simp [pieces, hc, h]

/-- A text is cut by first cutting it at some of the separators only. -/
theorem pieces_eq_flatMap {fine coarse : Char → Bool} (h : ∀ c, coarse c → fine c)
    (cs : List Char) : pieces fine cs = (pieces coarse cs).flatMap (pieces fine) := by
  induction cs with
  | nil => rfl
  | cons c cs ih =>
    obtain ⟨piece, more, hpieces⟩ := List.exists_cons_of_ne_nil (pieces_ne_nil coarse cs)
    by_cases hcoarse : coarse c
    · simp [pieces, hcoarse, h c hcoarse, ih]
    · rw [hpieces, List.flatMap_cons] at ih
      rw [pieces_cons_of_not hcoarse hpieces, List.flatMap_cons]
      by_cases hfine : fine c
      · simp [pieces, hfine, ih]
      · obtain ⟨word, words, hwords⟩ := List.exists_cons_of_ne_nil (pieces_ne_nil fine piece)
        rw [hwords, List.cons_append] at ih
        rw [pieces_cons_of_not hfine ih, pieces_cons_of_not hfine hwords, List.cons_append]

theorem words_eq_flatMap (text : String) :
    words text = (pieces (· = '\n') text.toList).flatMap fun piece => words (String.ofList piece) := by
  have hblank : ∀ c : Char, decide (c = '\n') → isBlank c := by
    intro c hc
    obtain rfl := of_decide_eq_true hc
    decide
  simp only [words, String.toList_ofList]
  rw [pieces_eq_flatMap hblank, List.filter_flatMap, List.map_flatMap]

/-! ### Blanks at the ends -/

theorem words_append_blanks_right {blanks : List Char} (h : ∀ c ∈ blanks, isBlank c)
    (front : List Char) : words (String.ofList (front ++ blanks)) = words (String.ofList front) := by
  cases blanks with
  | nil => rw [List.append_nil]
  | cons c blanks =>
    obtain ⟨hc, hblanks⟩ := List.forall_mem_cons.1 h
    have hnone : words (String.ofList blanks) = [] := by
      rw [← List.append_nil blanks, words_append_blanks hblanks]
      rfl
    rw [words_append_cons hc, hnone, List.append_nil]

/-- A text is its trimmed form between blanks. -/
theorem exists_blanks_around_trim (cs : List Char) :
    ∃ front back, (∀ c ∈ front, isBlank c) ∧ (∀ c ∈ back, isBlank c) ∧
      cs = front ++ (trim cs ++ back) := by
  refine ⟨cs.takeWhile isBlank, (cs.dropWhile isBlank).rtakeWhile isBlank,
    fun _ => List.mem_takeWhile_imp, fun _ => List.mem_rtakeWhile_imp, ?_⟩
  have hback : trim cs ++ (cs.dropWhile isBlank).rtakeWhile isBlank = cs.dropWhile isBlank :=
    List.rdropWhile_append_rtakeWhile ..
  rw [hback, List.takeWhile_append_dropWhile]

theorem words_trim (cs : List Char) : words (String.ofList (trim cs)) = words (String.ofList cs) := by
  obtain ⟨front, back, hfront, hback, hcs⟩ := exists_blanks_around_trim cs
  conv_rhs => rw [hcs]
  rw [words_append_blanks hfront, words_append_blanks_right hback]

theorem trim_append_blank {c : Char} (hc : isBlank c) (cs : List Char) : trim (cs ++ [c]) = trim cs := by
  rw [trim, trim, List.dropWhile_append]
  by_cases hnil : (cs.dropWhile isBlank).isEmpty
  · rw [if_pos hnil, List.isEmpty_iff.1 hnil]
    simp [hc]
  · rw [if_neg hnil]
    simp [hc]

/-! ### Lines -/

/-- The lines of a text.  A line ends at a line feed, or at a carriage return with a line feed behind
it; the last one may end with the text. -/
def lines : List Char → List (List Char)
  | [] => []
  | '\n' :: rest => [] :: lines rest
  | '\r' :: '\n' :: rest => [] :: lines rest
  | c :: rest =>
    match lines rest with
    | [] => [[c]]
    | line :: more => (c :: line) :: more

/-- The piece is the line, or the line with a carriage return. -/
def HoldsLine (piece line : List Char) : Prop := piece = line ∨ piece = line ++ ['\r']

theorem HoldsLine.cons {piece line : List Char} (h : HoldsLine piece line) (c : Char) :
    HoldsLine (c :: piece) (c :: line) := by
  obtain rfl | rfl := h
  · exact .inl rfl
  · exact .inr rfl

theorem trim_of_holdsLine {piece line : List Char} (h : HoldsLine piece line) : trim piece = trim line := by
  obtain rfl | rfl := h
  · rfl
  · exact trim_append_blank (by decide) line

/-- The pieces between line feeds are the lines, up to carriage returns; behind a line feed at the
end of the text there is an empty piece, which is no line. -/
theorem forall₂_pieces_lines (cs : List Char) :
    ∃ rest ∈ [[], [[]]], List.Forall₂ HoldsLine (pieces (· = '\n') cs) (lines cs ++ rest) := by
  fun_induction lines cs with
  | case1 => exact ⟨[[]], by simp, .cons (.inl rfl) .nil⟩
  | case2 cs ih =>
    obtain ⟨rest, hrest, h⟩ := ih
    exact ⟨rest, hrest, by simpa [pieces] using ⟨Or.inl rfl, h⟩⟩
  | case3 cs ih =>
    obtain ⟨rest, hrest, h⟩ := ih
    exact ⟨rest, hrest, by simpa [pieces] using ⟨Or.inr rfl, h⟩⟩
  | case4 c cs hfeed hreturn hnone ih =>
    -- Nothing but the empty piece behind `c` is left of the text.
    obtain ⟨rest, hrest, h⟩ := ih
    rw [hnone, List.nil_append] at h
    refine ⟨[], by simp, ?_⟩
    simp only [List.mem_cons, List.not_mem_nil, or_false] at hrest
    obtain rfl | rfl := hrest
    · exact absurd (List.forall₂_nil_right_iff.1 h) (pieces_ne_nil _ cs)
    · obtain ⟨piece, more, hpiece, hmore, hpieces⟩ := List.forall₂_cons_right_iff.1 h
      obtain rfl := List.forall₂_nil_right_iff.1 hmore
      rw [pieces_cons_of_not (by simpa using hfeed) hpieces]
      exact .cons (hpiece.cons c) .nil
  | case5 c cs hfeed hreturn line more hlines ih =>
    obtain ⟨rest, hrest, h⟩ := ih
    rw [hlines, List.cons_append] at h
    obtain ⟨piece, others, hpiece, hothers, hpieces⟩ := List.forall₂_cons_right_iff.1 h
    refine ⟨rest, hrest, ?_⟩
    rw [pieces_cons_of_not (by simpa using hfeed) hpieces, List.cons_append]
    exact .cons (hpiece.cons c) hothers

theorem map_trim_eq_of_forall₂ {ps ls : List (List Char)} (h : List.Forall₂ HoldsLine ps ls) :
    ps.map trim = ls.map trim := by
  induction h with
  | nil => rfl
  | cons hline _ ih => rw [List.map_cons, List.map_cons, trim_of_holdsLine hline, ih]

/-- The lines that are not blank, trimmed, are the trimmed lines. -/
theorem trimmedLines_eq (text : String) :
    trimmedLines text = (((lines text.toList).map trim).filter (· ≠ [])).map String.ofList := by
  obtain ⟨rest, hrest, h⟩ := forall₂_pieces_lines text.toList
  have hblank : (rest.map trim).filter (· ≠ []) = [] := by
    simp only [List.mem_cons, List.not_mem_nil, or_false] at hrest
    obtain rfl | rfl := hrest <;> decide
  rw [trimmedLines, map_trim_eq_of_forall₂ h, List.map_append, List.filter_append, hblank,
    List.append_nil]

/-! ### Words of lines -/

/-- Lines without characters have no words. -/
theorem flatMap_words_filter (ls : List (List Char)) :
    (ls.filter (· ≠ [])).flatMap (fun line => words (String.ofList line)) =
      ls.flatMap fun line => words (String.ofList line) := by
  have hempty : words "" = [] := rfl
  induction ls with
  | nil => rfl
  | cons line ls ih =>
    by_cases hline : line = []
    · simpa [hline, hempty] using ih
    · simpa [hline] using ih

/-- The words of the trimmed lines, one line after the other, are the words of the text. -/
theorem flatMap_words_trimmedLines (text : String) :
    (trimmedLines text).flatMap words = words text := by
  rw [trimmedLines, List.flatMap_map, flatMap_words_filter, List.flatMap_map, words_eq_flatMap text]
  simp only [words_trim]

theorem flatMap_words_of_isWord {ls : List String} (h : ∀ line ∈ ls, IsWord line) :
    ls.flatMap words = ls := by
  induction ls with
  | nil => rfl
  | cons line ls ih =>
    obtain ⟨hline, hls⟩ := List.forall_mem_cons.1 h
    rw [List.flatMap_cons, words_of_isWord hline, ih hls, List.singleton_append]

/-- Lines without blanks are the words of the text. -/
theorem trimmedLines_eq_words {text : String}
    (h : ∀ line ∈ trimmedLines text, ∀ c ∈ line.toList, ¬isBlank c) :
    trimmedLines text = words text := by
  have hword : ∀ line ∈ trimmedLines text, IsWord line := by
    intro line hline
    refine ⟨?_, h line hline⟩
    rw [trimmedLines] at hline
    obtain ⟨cs, hcs, rfl⟩ := List.mem_map.1 hline
    simpa using (List.mem_filter.1 hcs).2
  rw [← flatMap_words_trimmedLines, flatMap_words_of_isWord hword]

end SigScript.Text
