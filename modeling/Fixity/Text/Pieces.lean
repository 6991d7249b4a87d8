/-!
# Pieces of a text

A text cut at every character of a kind.  The pieces are what stands between these
characters, in order, and may be empty.
-/

namespace Fixity.Text

/-- Puts a character in front of the first part, which is opened if there is none. -/
def pushFront (c : Char) : List (List Char) → List (List Char)
  | [] => [[c]]
  | part :: parts => (c :: part) :: parts

/-- **The pieces of a text** between the characters that divide it, empty ones
included. -/
def pieces (divides : Char → Bool) : List Char → List (List Char)
  | [] => [[]]
  | c :: cs =>
    if divides c then [] :: pieces divides cs else pushFront c (pieces divides cs)

/-- A divider closes the piece before it. -/
theorem pieces_cons_of_divides {divides : Char → Bool} {c : Char} (h : divides c = true)
    (cs : List Char) : pieces divides (c :: cs) = [] :: pieces divides cs := by
  simp [pieces, h]

/-- A text is divided in one more piece than it has dividers. -/
theorem length_pieces (divides : Char → Bool) (text : List Char) :
    (pieces divides text).length = text.countP divides + 1 := by
  induction text with
  | nil => rfl
  | cons c cs ih =>
    by_cases h : divides c
    · simp [pieces, h, ih]
    · cases hp : pieces divides cs with
      | nil => simp [hp] at ih
      | cons first rest => simpa [pieces, h, hp, pushFront] using ih

end Fixity.Text
