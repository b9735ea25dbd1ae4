import Mathlib
import SigScript.Proofs.CommandLine.Output
import SigScript.Proofs.Text.Lines

/-!
# Tokens of a script file

A command line takes each line of its file for a token, and so tokens may hold blanks.  A text can also
be cut into tokens at its blanks.  Both ways find the same words (`line_tokens_are_words`): they differ
only where a blank stands inside a line.
-/

namespace SigScript

open Switch

/-- The tokens of a command line are the lines of the file, trimmed, without the empty ones.  Their
words, one token after the other, are the words of the file.  Where no token holds a blank, the tokens
are the words themselves, and what a command line shows is the run of the words. -/
theorem line_tokens_are_words (source : String) :
    Text.trimmedLines source =
      (((Text.lines source.toList).map Text.trim).filter (· ≠ [])).map String.ofList ∧
    (Text.trimmedLines source).flatMap Text.words = Text.words source ∧
    ((∀ token ∈ Text.trimmedLines source, ∀ c ∈ token.toList, ¬Text.isBlank c) →
      Text.trimmedLines source = Text.words source ∧
      ∀ (path : String) (switches : List Switch) (read : String → Except ReadError Bytes),
        path ≠ "--help" ∧ path ≠ "-h" → (read path).bind textOfOctets = .ok source →
        (respond (path :: arguments switches) read).shown =
          match Machine.run { hash := lastHash switches } (Text.words source) with
          | .ok stack => (Stack.text stack ++ "\n", 0)
          | .error _ => ("", 1)) := by
  refine ⟨Text.trimmedLines_eq source, Text.flatMap_words_trimmedLines source, fun h => ?_⟩
  have hwords := Text.trimmedLines_eq_words h
  refine ⟨hwords, fun path switches read hpath hsource => ?_⟩
  have hshown := shown_respond_arguments hpath read switches hsource
  rw [hwords] at hshown
  exact hshown

/-- Lines with both line ends, with blanks around them and without an end. -/
theorem line_tokens_are_words_add :
    (∀ token ∈ Text.trimmedLines "1\r\n\u00a02\u2003\r\n\nADD\r", ∀ c ∈ token.toList, ¬Text.isBlank c) ∧
    (respond ["add"] fun _ => .ok [0x31, 0x0d, 0x0a, 0xc2, 0xa0, 0x32, 0xe2, 0x80, 0x83, 0x0d, 0x0a,
      0x0a, 0x41, 0x44, 0x44, 0x0d]).shown = ("[3]\n", 0) := by
  have htokens : Text.trimmedLines "1\r\n\u00a02\u2003\r\n\nADD\r" = ["1", "2", "ADD"] := by cbv
  have hblank : ∀ token ∈ Text.trimmedLines "1\r\n\u00a02\u2003\r\n\nADD\r",
      ∀ c ∈ token.toList, ¬Text.isBlank c := by
    rw [htokens]
    simp [Text.isBlank, Text.blankRanges]
  refine ⟨hblank, ?_⟩
  have hrun := ((line_tokens_are_words _).2.2 hblank).2 "add" [] (fun _ => .ok [0x31, 0x0d, 0x0a, 0xc2,
    0xa0, 0x32, 0xe2, 0x80, 0x83, 0x0d, 0x0a, 0x0a, 0x41, 0x44, 0x44, 0x0d]) (by decide) (by cbv)
  exact hrun.trans (by cbv)

-- A blank inside a line is part of its token, but not of the words of the line.
example : Text.trimmedLines "1 2\rADD\n" = ["1 2\rADD"] := by decide +kernel
example : Text.words "1 2\rADD\n" = ["1", "2", "ADD"] := by decide +kernel

end SigScript
