import Fixity.Text.Pieces

/-!
# Lines of a text

A line ends at a line feed.  One carriage return right before the line feed
belongs to the line's end; a carriage return anywhere else is a character of its
line.  A line feed that ends the text ends its last line and opens no further one,
so the empty text has no line at all (`lines_nil`) and a text that is one line
feed has one empty line.
-/

namespace Fixity.Text

/-- **The lines of a text**, without their ends. -/
def lines : List Char → List (List Char)
  | [] => []
  | '\n' :: cs => [] :: lines cs
  | '\r' :: '\n' :: cs => [] :: lines cs
  | c :: cs => pushFront c (lines cs)

/-- The lines of a text with their numbers, the first line being number 1. -/
def numberedLines (text : List Char) : List (Nat × List Char) :=
  (lines text).zipIdx.map fun entry => (entry.2 + 1, entry.1)

/-- Without their numbers, numbered lines are the lines. -/
@[simp] theorem map_snd_numberedLines (text : List Char) :
    (numberedLines text).map Prod.snd = lines text := by
  rw [numberedLines, List.map_map]
  exact List.zipIdx_map_fst 0 (lines text)

@[simp] theorem lines_nil : lines [] = [] := rfl

@[simp] theorem lines_newline (cs : List Char) : lines ('\n' :: cs) = [] :: lines cs := by
  rw [lines]

/-- A line holds no line feed. -/
theorem newline_notMem_of_mem_lines {text line : List Char} (h : line ∈ lines text) :
    '\n' ∉ line := by
  induction text using lines.induct generalizing line with
  | case1 => simp at h
  | case2 cs ih =>
      rw [lines] at h
      rcases List.mem_cons.mp h with rfl | h
      · simp
      · exact ih h
  | case3 cs ih =>
      rw [lines] at h
      rcases List.mem_cons.mp h with rfl | h
      · simp
      · exact ih h
  | case4 c cs hnl hcr ih =>
      rw [lines.eq_4 c cs hnl hcr] at h
      cases hl : lines cs with
      | nil =>
          simp only [hl, pushFront, List.mem_singleton] at h
          subst h
          intro hm
          exact hnl (List.mem_singleton.mp hm).symm
      | cons first rest =>
          simp only [hl, pushFront] at h
          rcases List.mem_cons.mp h with rfl | h
          · intro hm
            rcases List.mem_cons.mp hm with he | hm
            · exact hnl he.symm
            · exact ih (hl ▸ List.mem_cons_self) hm
          · exact ih (hl ▸ List.mem_cons_of_mem _ h)

end Fixity.Text
