import Fixity.Text.CharSet
import Fixity.Text.Pieces

/-!
# Blank characters

Which characters separate words, for every Unicode character, and the two ways a
line of text is taken apart by them: `trim` removes the blanks at both ends, and
`fields` lists the maximal runs of characters that are not blank.

The class is the Unicode property *White_Space* (`blankRanges`).  It is larger
than the class of core, which knows four characters; every one of those is in it
(`isBlank_of_isWhitespace`).

Text is a `List Char` here and in the modules that read it, so that every scan is
a recursion on the characters that are left.
-/

namespace Fixity.Text

/-- The code points of the property *White_Space*. -/
def blankRanges : List (Nat × Nat) :=
  [(0x0009, 0x000D), (0x0020, 0x0020), (0x0085, 0x0085), (0x00A0, 0x00A0),
   (0x1680, 0x1680), (0x2000, 0x200A), (0x2028, 0x2029), (0x202F, 0x202F),
   (0x205F, 0x205F), (0x3000, 0x3000)]

/-- The blank characters. -/
def blanks : CharSet := ⟨blankRanges, by decide⟩

/-- Whether a character is blank. -/
def isBlank (c : Char) : Bool := blanks.contains c

/-- Every blank of core is a blank here. -/
theorem isBlank_of_isWhitespace {c : Char} (h : c.isWhitespace = true) : isBlank c = true := by
  simp only [Char.isWhitespace, Bool.or_eq_true, decide_eq_true_eq] at h
  rcases h with ((h | h) | h) | h <;> subst h <;> decide

/-! ## Trimming -/

/-- The text without the blanks at its end. -/
def trimEnd (text : List Char) : List Char :=
  (text.reverse.dropWhile isBlank).reverse

/-- The text without the blanks at both ends. -/
def trim (text : List Char) : List Char :=
  trimEnd (text.dropWhile isBlank)

/-! ## Fields -/

/-- **The fields of a text**: its maximal runs of characters that are not blank. -/
def fields (text : List Char) : List (List Char) :=
  (pieces isBlank text).filter fun piece => !piece.isEmpty

/-- Blanks in front of a text do not change its fields. -/
theorem fields_cons_of_isBlank {c : Char} (h : isBlank c = true) (cs : List Char) :
    fields (c :: cs) = fields cs := by
  simp [fields, pieces_cons_of_divides h]

end Fixity.Text
