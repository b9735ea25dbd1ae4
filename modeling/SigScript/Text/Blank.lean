/-!
# White space

The characters with the Unicode property `White_Space`, and the three ways in which texts are cut
along them: into words, into lines without the blanks around them, or by leaving them all out.
Words and lines are both made of the `pieces` between separators.
-/

namespace SigScript.Text

/-- The code points with the property `White_Space`, as inclusive ranges. -/
def blankRanges : List (Nat × Nat) := [
  (0x9, 0xd), (0x20, 0x20), (0x85, 0x85), (0xa0, 0xa0), (0x1680, 0x1680), (0x2000, 0x200a),
  (0x2028, 0x2029), (0x202f, 0x202f), (0x205f, 0x205f), (0x3000, 0x3000)]

/-- Whether a character is white space. -/
def isBlank (c : Char) : Bool :=
  blankRanges.any fun (low, high) => low ≤ c.toNat && c.toNat ≤ high

/-- The pieces of a text between separators.  There is one more piece than there are separators, and
pieces may be empty. -/
def pieces (isSeparator : Char → Bool) : List Char → List (List Char)
  | [] => [[]]
  | c :: rest =>
    if isSeparator c then [] :: pieces isSeparator rest
    else
      match pieces isSeparator rest with
      | [] => [[c]]
      | piece :: more => (c :: piece) :: more

/-- A text without the blanks at its two ends. -/
def trim (cs : List Char) : List Char :=
  ((cs.dropWhile isBlank).reverse.dropWhile isBlank).reverse

/-- The longest parts of a text that hold no blanks. -/
def words (text : String) : List String :=
  ((pieces isBlank text.toList).filter (· ≠ [])).map String.ofList

/-- The lines of a text, trimmed, without those that hold nothing but blanks. -/
def trimmedLines (text : String) : List String :=
  (((pieces (· = '\n') text.toList).map trim).filter (· ≠ [])).map String.ofList

/-- A text without any blanks. -/
def compact (text : String) : String := String.ofList (text.toList.filter fun c => !isBlank c)

/-! ### Pieces -/

theorem pieces_ne_nil (isSeparator : Char → Bool) (cs : List Char) :
    pieces isSeparator cs ≠ [] := by
  cases cs with
  | nil => simp [pieces]
  | cons c rest =>
    rw [pieces]
    split
    · simp
    · split <;> simp

end SigScript.Text
