import Fixity.Cursor

/-! # Merged failures and the record

Merging two failures prefers the deeper one, and at one position it is biased to the left:
the expectations, the description and the kind of the first come first.  All the same it
does not matter how failures are grouped (`Failure.merge_assoc`), nor whether one is merged
twice (`Failure.merge_self`).

The record of a cursor is the merge of what it remembered, in order
(`Cursor.furthest_foldl_remember`).  Only the failures at the greatest position leave a
trace in it (`Failure.foldl_merge_of_lt`), and those can be written down together without
merging anything (`Failure.together`).
-/
namespace Fixity

/-! ## Expectations -/

theorem mem_addExpectation {es : List String} {t s : String} :
    s ∈ addExpectation es t ↔ s ∈ es ∨ s = t := by
  unfold addExpectation
  split
  · rename_i ht
    refine ⟨Or.inl, ?_⟩
    rintro (h | rfl)
    · exact h
    · exact ht
  · simp

theorem mem_foldl_addExpectation {es es' : List String} {s : String} :
    s ∈ es'.foldl addExpectation es ↔ s ∈ es ∨ s ∈ es' := by
  induction es' generalizing es with
  | nil => simp
  | cons t es' ih =>
    rw [List.foldl_cons, ih, mem_addExpectation, List.mem_cons, or_assoc]

theorem addExpectation_of_mem {es : List String} {t : String} (h : t ∈ es) :
    addExpectation es t = es := if_pos h

/-- Expectations that are there already add nothing. -/
theorem foldl_addExpectation_of_subset {es es' : List String} (h : es' ⊆ es) :
    es'.foldl addExpectation es = es := by
  induction es' with
  | nil => rfl
  | cons t es' ih =>
    obtain ⟨ht, hes'⟩ := List.cons_subset.mp h
    rw [List.foldl_cons, addExpectation_of_mem ht, ih hes']

/-- Adding what a list makes of another is adding the list and then the other. -/
theorem foldl_foldl_addExpectation (es es' es'' : List String) :
    (es''.foldl addExpectation es').foldl addExpectation es =
      es''.foldl addExpectation (es'.foldl addExpectation es) := by
  induction es'' generalizing es' with
  | nil => rfl
  | cons t es'' ih =>
    have hstep : (addExpectation es' t).foldl addExpectation es =
        addExpectation (es'.foldl addExpectation es) t := by
      by_cases ht : t ∈ es'
      · rw [addExpectation_of_mem ht,
          addExpectation_of_mem (mem_foldl_addExpectation.mpr (.inr ht))]
      · rw [addExpectation, if_neg ht, List.foldl_append]
        rfl
    rw [List.foldl_cons, List.foldl_cons, ih, hstep]

/-- **What is added to expectations**: those that are new, in the order of their first
occurrences. -/
theorem foldl_addExpectation_eq (es es' : List String) :
    es'.foldl addExpectation es = es ++ (es'.filter (· ∉ es)).eraseDups := by
  induction es' generalizing es with
  | nil => simp
  | cons t es' ih =>
    rw [List.foldl_cons, ih]
    by_cases ht : t ∈ es
    · rw [addExpectation_of_mem ht, List.filter_cons_of_neg (by simpa using ht)]
    · rw [addExpectation, if_neg ht, List.filter_cons_of_pos (by simpa using ht),
        List.eraseDups_cons, List.filter_filter, List.append_assoc, List.singleton_append]
      congr 4
      funext s
      simp [Bool.and_comm, Bool.beq_eq_decide_eq]

namespace Failure
variable {f g : Failure} {p : Nat}

/-! ## Merging -/

theorem merge_of_lt (h : g.position < f.position) : f.merge g = f := if_pos h

theorem merge_of_gt (h : f.position < g.position) : f.merge g = g := by
  rw [merge, if_neg (by omega), if_pos h]

theorem merge_of_eq (h : f.position = g.position) : f.merge g =
    { f with
      expected := g.expected.foldl addExpectation f.expected
      found := f.found.or g.found
      severity := if g.isFatal then .fatal else f.severity } := by
  rw [merge, if_neg (by omega), if_neg (by omega)]

/-- At one position, a merged failure is fatal if one of the two is. -/
theorem isFatal_merge_of_eq (h : f.position = g.position) :
    (f.merge g).isFatal = (f.isFatal || g.isFatal) := by
  rw [merge_of_eq h]
  cases hg : g.isFatal <;> simp [isFatal]

/-- **Merging is associative.** -/
theorem merge_assoc (f g h : Failure) : (f.merge g).merge h = f.merge (g.merge h) := by
  rcases Nat.lt_trichotomy f.position g.position with hfg | hfg | hgf
  · have hlt : f.position < (g.merge h).position := by
      rw [position_merge]
      omega
    rw [merge_of_gt hfg, merge_of_gt hlt]
  · have hpos : (f.merge g).position = g.position := by
      rw [position_merge]
      omega
    rcases Nat.lt_trichotomy g.position h.position with hgh | hgh | hhg
    · rw [merge_of_gt (hpos ▸ hgh), merge_of_gt hgh, merge_of_gt (hfg ▸ hgh)]
    · -- All three meet: only the expectations take more than one step.
      have hpos' : f.position = (g.merge h).position := by
        rw [position_merge]
        omega
      rw [merge_of_eq (hpos.trans hgh), merge_of_eq hpos', isFatal_merge_of_eq hgh,
        merge_of_eq hfg, merge_of_eq hgh]
      simp only [foldl_foldl_addExpectation, Option.or_assoc]
      cases g.isFatal <;> cases h.isFatal <;> rfl
    · rw [merge_of_lt (hpos ▸ hhg), merge_of_lt hhg]
  · rw [merge_of_lt hgf]
    rcases Nat.lt_or_ge g.position h.position with hgh | hhg
    · rw [merge_of_gt hgh]
    · have hlt : (g.merge h).position < f.position := by
        rw [position_merge]
        omega
      rw [merge_of_lt hlt, merge_of_lt (by omega)]

/-- **Merging a failure with itself changes nothing.** -/
theorem merge_self (f : Failure) : f.merge f = f := by
  rw [merge_of_eq rfl, foldl_addExpectation_of_subset (List.Subset.refl _), Option.or_self]
  obtain ⟨position, expected, found, severity, kind⟩ := f
  cases severity <;> rfl

/-! ## Failures taken together -/

/-- **Failures at one position, taken together**: the first with the further expectations of
the others, in the order of their first occurrences, and with the first description that
there is.  One fatal failure makes it fatal. -/
def together (first : Failure) (others : List Failure) : Failure where
  position := first.position
  expected := first.expected ++
    ((others.flatMap (·.expected)).filter (· ∉ first.expected)).eraseDups
  found := (first :: others).findSome? (·.found)
  severity := if (first :: others).any isFatal then .fatal else .recoverable
  kind := first.kind

theorem together_nil (f : Failure) : f.together [] = f := by
  obtain ⟨position, expected, found, severity, kind⟩ := f
  cases found <;> cases severity <;> simp [together, isFatal]

/-- One failure more may be merged into the first. -/
theorem together_cons (h : f.position = g.position) (others : List Failure) :
    f.together (g :: others) = (f.merge g).together others := by
  have hfatal := isFatal_merge_of_eq h
  rw [merge_of_eq h] at hfatal ⊢
  simp only [together, Failure.mk.injEq, true_and, and_true]
  refine ⟨?_, ?_, ?_⟩
  · rw [← foldl_addExpectation_eq, ← foldl_addExpectation_eq, List.flatMap_cons, List.foldl_append]
  · cases hf : f.found <;> simp [List.findSome?_cons, hf]
  · rw [List.any_cons, List.any_cons, List.any_cons, hfatal, Bool.or_assoc]

/-- **Failures at one position are merged to the failure they make together.** -/
theorem foldl_merge_of_eq {others : List Failure} (h : ∀ g ∈ others, g.position = f.position) :
    others.foldl merge f = f.together others := by
  induction others generalizing f with
  | nil => exact (together_nil f).symm
  | cons g others ih =>
    obtain ⟨hg, hothers⟩ := List.forall_mem_cons.mp h
    have hpos : (f.merge g).position = f.position := by
      rw [position_merge]
      omega
    rw [List.foldl_cons, together_cons hg.symm, ih (hpos ▸ hothers)]

/-- The failures of a list at one position, in order. -/
def atPosition (p : Nat) (fs : List Failure) : List Failure := fs.filter (·.position = p)

theorem atPosition_cons_of_eq (h : f.position = p) (fs : List Failure) :
    atPosition p (f :: fs) = f :: atPosition p fs := List.filter_cons_of_pos (by simpa using h)

theorem atPosition_cons_of_ne (h : f.position ≠ p) (fs : List Failure) :
    atPosition p (f :: fs) = atPosition p fs := List.filter_cons_of_neg (by simpa using h)

/-- Behind a failure at the greatest position, only others at this position count. -/
theorem foldl_merge_of_ge {fs : List Failure} (h : ∀ g ∈ fs, g.position ≤ f.position) :
    fs.foldl merge f = (atPosition f.position fs).foldl merge f := by
  induction fs generalizing f with
  | nil => rfl
  | cons g fs ih =>
    obtain ⟨hg, hfs⟩ := List.forall_mem_cons.mp h
    have hpos : (f.merge g).position = f.position := by
      rw [position_merge]
      omega
    have hrest := ih (f := f.merge g) (hpos ▸ hfs)
    rw [List.foldl_cons, hrest, hpos]
    rcases Nat.lt_or_eq_of_le hg with hlt | heq
    · rw [merge_of_lt hlt, atPosition_cons_of_ne (Nat.ne_of_lt hlt)]
    · rw [atPosition_cons_of_eq heq, List.foldl_cons]

/-- **Failures before the greatest position leave no trace**, wherever they occur. -/
theorem foldl_merge_of_lt {fs others : List Failure} {first : Failure}
    (hle : ∀ g ∈ f :: fs, g.position ≤ p) (hp : atPosition p (f :: fs) = first :: others) :
    fs.foldl merge f = first.together others := by
  have hothers : ∀ g ∈ first :: others, g.position = p := by
    rw [← hp]
    exact fun g hg => of_decide_eq_true (List.mem_filter.mp hg).2
  obtain ⟨hfirst, hothers⟩ := List.forall_mem_cons.mp hothers
  rw [← foldl_merge_of_eq (hfirst ▸ hothers)]
  induction fs generalizing f with
  | nil =>
    by_cases hf : f.position = p
    · rw [atPosition_cons_of_eq hf] at hp
      cases hp
      rfl
    · rw [atPosition_cons_of_ne hf] at hp
      cases hp
  | cons g fs ih =>
    obtain ⟨hf, hrest⟩ := List.forall_mem_cons.mp hle
    obtain ⟨hg, hfs⟩ := List.forall_mem_cons.mp hrest
    rcases Nat.lt_or_eq_of_le hf with hlt | rfl
    · -- What is merged of the first two lies at `p` exactly when the second does, and is the
      -- second then.
      have hsame : atPosition p (f.merge g :: fs) = atPosition p (g :: fs) := by
        rcases Nat.lt_or_eq_of_le hg with hlt' | heq
        · have hpos : (f.merge g).position ≠ p := by
            rw [position_merge]
            omega
          rw [atPosition_cons_of_ne hpos, atPosition_cons_of_ne (Nat.ne_of_lt hlt')]
        · rw [merge_of_gt (heq ▸ hlt)]
      have hpos : (f.merge g).position ≤ p := by
        rw [position_merge]
        omega
      rw [atPosition_cons_of_ne (Nat.ne_of_lt hlt), ← hsame] at hp
      exact ih (List.forall_mem_cons.mpr ⟨hpos, hfs⟩) hp
    · rw [atPosition_cons_of_eq rfl] at hp
      cases hp
      exact foldl_merge_of_ge (List.forall_mem_cons.mp hle).2

end Failure

/-! ## The record -/

namespace Cursor

/-- Two failures may be remembered together. -/
theorem remember_remember (c : Cursor) (f g : Failure) :
    (c.remember f).remember g = c.remember (f.merge g) := by
  unfold remember
  cases c.furthest with
  | none => rfl
  | some r => exact congrArg (fun r => { c with furthest := some r }) (r.merge_assoc f g)

/-- A cursor with a record merges what it remembers into it, in order. -/
theorem furthest_foldl_remember {c : Cursor} {r : Failure} (h : c.furthest = some r)
    (fs : List Failure) : (fs.foldl remember c).furthest = some (fs.foldl Failure.merge r) := by
  induction fs generalizing c r with
  | nil => exact h
  | cons f fs ih =>
    have hstep : (c.remember f).furthest = some (r.merge f) := by rw [remember, h]
    rw [List.foldl_cons, List.foldl_cons, ih hstep]

/-- The record of what a fresh cursor remembers. -/
theorem furthest_remember_start (ts : List Token) (f : Failure) (fs : List Failure) :
    ((f :: fs).foldl remember (.start ts)).furthest = some (fs.foldl Failure.merge f) :=
  furthest_foldl_remember rfl fs

/-- **The record is what the failures at the greatest position make together.** -/
theorem furthest_of_atPosition {fs others : List Failure} {first : Failure} {p : Nat}
    (hle : ∀ g ∈ fs, g.position ≤ p) (hp : Failure.atPosition p fs = first :: others)
    (ts : List Token) :
    (fs.foldl remember (.start ts)).furthest = some (first.together others) := by
  cases fs with
  | nil => cases hp
  | cons f fs => rw [furthest_remember_start, Failure.foldl_merge_of_lt hle hp]

/-- **The record is the merge of what was remembered.**  Merging is associative, and a failure
merged with itself stays as it is.  After any failures, one or more, the record of a fresh
cursor is what those at their greatest position make together.  Failures before this
position have no part in it, wherever they occur: failures that reach no further and are the
same there leave the same record. -/
theorem furthest_eq_together :
    (∀ f g h : Failure, (f.merge g).merge h = f.merge (g.merge h)) ∧
    (∀ f : Failure, f.merge f = f) ∧
    ∀ (ts : List Token) (fs : List Failure), fs ≠ [] →
      ∃ p first others, (fs.map (·.position)).max? = some p ∧
        Failure.atPosition p fs = first :: others ∧
        (fs.foldl remember (.start ts)).furthest = some (first.together others) ∧
        ∀ fs' : List Failure, (∀ f ∈ fs', f.position ≤ p) →
          Failure.atPosition p fs' = Failure.atPosition p fs →
          (fs'.foldl remember (.start ts)).furthest =
            (fs.foldl remember (.start ts)).furthest := by
  refine ⟨Failure.merge_assoc, Failure.merge_self, fun ts fs hne => ?_⟩
  obtain ⟨p, hp⟩ : ∃ p, (fs.map (·.position)).max? = some p :=
    Option.isSome_iff_exists.mp (List.isSome_max?_of_ne_nil (mt List.map_eq_nil_iff.mp hne))
  obtain ⟨hmem, hle⟩ := List.max?_eq_some_iff.mp hp
  obtain ⟨f, hf, rfl⟩ := List.mem_map.mp hmem
  have hle' : ∀ g ∈ fs, g.position ≤ f.position := fun g hg => hle _ (List.mem_map_of_mem hg)
  obtain ⟨first, others, hdeepest⟩ : ∃ first others,
      Failure.atPosition f.position fs = first :: others :=
    List.exists_cons_of_ne_nil (List.ne_nil_of_mem (List.mem_filter.mpr ⟨hf, by simp⟩))
  have hrecord := furthest_of_atPosition hle' hdeepest ts
  refine ⟨f.position, first, others, hp, hdeepest, hrecord, fun fs' hle'' hsame => ?_⟩
  rw [hrecord, furthest_of_atPosition hle'' (hsame.trans hdeepest) ts]

/-- Three failures at one position, the second fatal and the third about trailing input, with
expectations that repeat; and the same three among failures before them. -/
theorem furthest_eq_together_mixed :
    let deepest : List Failure :=
      [⟨3, ["a", "a"], none, .recoverable, .unexpected⟩,
        ⟨3, ["b", "a"], some "y", .fatal, .trailing⟩,
        ⟨3, ["c", "b"], some "z", .recoverable, .trailing⟩]
    let fs := ⟨2, ["d"], some "x", .fatal, .trailing⟩ :: deepest.intersperse (Failure.blank 1)
    fs ≠ [] ∧ (∀ f ∈ deepest, f.position ≤ 3) ∧
      Failure.atPosition 3 deepest = Failure.atPosition 3 fs ∧
      (fs.foldl remember (.start [])).furthest =
        some ⟨3, ["a", "a", "b", "c"], some "y", .fatal, .unexpected⟩ ∧
      (deepest.foldl remember (.start [])).furthest =
        (fs.foldl remember (.start [])).furthest := by
  intro deepest fs
  have hne : fs ≠ [] := List.cons_ne_nil _ _
  have hle : ∀ f ∈ deepest, f.position ≤ 3 := by decide
  have hsame : Failure.atPosition 3 deepest = Failure.atPosition 3 fs := by decide
  obtain ⟨p, first, others, hp, hdeepest, hrecord, hothers⟩ :=
    furthest_eq_together.2.2 [] fs hne
  obtain rfl : 3 = p := Option.some.inj hp
  refine ⟨hne, hle, hsame, ?_, hothers deepest hle hsame⟩
  cases hdeepest
  rw [hrecord]
  decide +kernel

end Cursor

end Fixity
