/-!
# Sets of characters

A set of characters as a table of closed ranges of code points.  The ranges of a
set stand in ascending order and apart (`CharSet.ascending`), so a look-up stops
at the first range above the character, and still finds the character exactly
when one of the ranges holds it (`CharSet.contains_iff`).
-/

namespace Fixity.Text

/-- Whether closed ranges stand in ascending order and apart, from `least` on. -/
def ascendFrom (least : Nat) : List (Nat × Nat) → Bool
  | [] => true
  | range :: rest => least ≤ range.1 && range.1 ≤ range.2 && ascendFrom (range.2 + 1) rest

/-- **A set of characters.** -/
structure CharSet where
  /-- The code points of the set, as closed ranges. -/
  ranges : List (Nat × Nat)
  /-- The ranges stand in ascending order and apart. -/
  ascending : ascendFrom 0 ranges = true

/-- Whether one of the ranges holds a code point, where the search ends at the
first range above it. -/
def inRanges (code : Nat) : List (Nat × Nat) → Bool
  | [] => false
  | range :: rest => range.1 ≤ code && (code ≤ range.2 || inRanges code rest)

/-- Whether a character is in the set. -/
def CharSet.contains (set : CharSet) (c : Char) : Bool := inRanges c.toNat set.ranges

/-- A range of an ascending table starts no earlier than the table. -/
theorem le_of_ascendFrom {least : Nat} {ranges : List (Nat × Nat)}
    (h : ascendFrom least ranges = true) {range : Nat × Nat} (hr : range ∈ ranges) :
    least ≤ range.1 := by
  induction ranges generalizing least with
  | nil => simp at hr
  | cons first rest ih =>
    simp only [ascendFrom, Bool.and_eq_true, decide_eq_true_eq] at h
    obtain ⟨⟨hleast, hfirst⟩, hrest⟩ := h
    rcases List.mem_cons.mp hr with rfl | hr
    · exact hleast
    · have := ih hrest hr
      omega

/-- In an ascending table the search misses no range. -/
theorem inRanges_iff {least : Nat} {ranges : List (Nat × Nat)}
    (h : ascendFrom least ranges = true) (code : Nat) :
    inRanges code ranges = true ↔ ∃ range ∈ ranges, range.1 ≤ code ∧ code ≤ range.2 := by
  induction ranges generalizing least with
  | nil => simp [inRanges]
  | cons first rest ih =>
    simp only [ascendFrom, Bool.and_eq_true, decide_eq_true_eq] at h
    obtain ⟨⟨_, hfirst⟩, hrest⟩ := h
    simp only [inRanges, Bool.and_eq_true, Bool.or_eq_true, decide_eq_true_eq, ih hrest,
      List.mem_cons, exists_eq_or_imp]
    constructor
    · rintro ⟨hlo, hhi | hin⟩
      · exact Or.inl ⟨hlo, hhi⟩
      · exact Or.inr hin
    · rintro (⟨hlo, hhi⟩ | ⟨range, hr, hlo, hhi⟩)
      · exact ⟨hlo, Or.inl hhi⟩
      · have := le_of_ascendFrom hrest hr
        exact ⟨by omega, Or.inr ⟨range, hr, hlo, hhi⟩⟩

/-- **A character is in a set exactly when one of its ranges holds it.** -/
theorem CharSet.contains_iff (set : CharSet) (c : Char) :
    set.contains c = true ↔ ∃ range ∈ set.ranges, range.1 ≤ c.toNat ∧ c.toNat ≤ range.2 :=
  inRanges_iff set.ascending c.toNat

end Fixity.Text
