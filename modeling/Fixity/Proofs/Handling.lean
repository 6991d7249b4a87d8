import Fixity.Proofs.Steps

/-! # Handling outcomes

Behind a run of another parser, a parser can go on in two ways: after a value, and after a
recoverable failure.  A fatal failure passes, and so does a run that does not end
(`Outcome.handle`).  Everything that is done with outcomes is of this form, the steps of
the loops included, so what holds of `handle` need not be shown anew for each of them.
-/
namespace Fixity

namespace Outcome
variable {α β : Type}

/-- **Goes on after a value, and after a recoverable failure.** -/
def handle (o : Outcome α) (next : α → Cursor → Outcome β)
    (rescue : Failure → Cursor → Outcome β) : Outcome β :=
  match o with
  | ok v c => next v c
  | fail f c => if f.isFatal = true then fail f c else rescue f c
  | stalled => stalled

theorem bind_eq_handle (o : Outcome α) (next : α → Cursor → Outcome β) :
    o.bind next = o.handle next fail := by
  cases o with
  | ok v c => rfl
  | fail f c => exact (ite_self (fail f c)).symm
  | stalled => rfl

theorem recover_eq_handle (o : Outcome α) (next : Failure → Cursor → Outcome α) :
    o.recover next = o.handle ok next := by
  cases o <;> rfl

/-- A failure after going on is one from before, or what the run went on to. -/
theorem bind_eq_fail {o : Outcome α} {next : α → Cursor → Outcome β} {f : Failure} {c : Cursor}
    (h : o.bind next = fail f c) :
    o = fail f c ∨ ∃ v c₁, o = ok v c₁ ∧ next v c₁ = fail f c := by
  cases o with
  | ok v c₁ => exact .inr ⟨v, c₁, rfl, h⟩
  | fail g c₁ =>
    cases h
    exact .inl rfl
  | stalled => cases h

/-- A change of the value leaves failures as they are. -/
theorem map_eq_fail {o : Outcome α} {g : α → β} {f : Failure} {c : Cursor}
    (h : o.map g = fail f c) : o = fail f c := by
  rcases bind_eq_fail h with ho | ⟨v, c₁, -, hv⟩
  · exact ho
  · cases hv

/-- A recoverable failure after a failure has been handled. -/
theorem recover_eq_fail {o : Outcome α} {next : Failure → Cursor → Outcome α} {f : Failure}
    {c : Cursor} (h : o.recover next = fail f c) (hf : f.isFatal = false) :
    ∃ g c₁, o = fail g c₁ ∧ g.isFatal = false ∧ next g c₁ = fail f c := by
  cases o with
  | ok v c₁ => cases h
  | fail g c₁ =>
    cases hg : g.isFatal with
    | true =>
      rw [recover_fatal hg] at h
      cases h
      rw [hf] at hg
      cases hg
    | false =>
      rw [recover_recoverable hg] at h
      exact ⟨g, c₁, rfl, hg, h⟩
  | stalled => cases h

/-- A value after a failure has been handled. -/
theorem recover_eq_ok {o : Outcome α} {next : Failure → Cursor → Outcome α} {v : α}
    {c : Cursor} (h : o.recover next = ok v c) :
    o = ok v c ∨ ∃ g c₁, o = fail g c₁ ∧ g.isFatal = false ∧ next g c₁ = ok v c := by
  cases o with
  | ok w c₁ => exact .inl h
  | fail g c₁ =>
    cases hg : g.isFatal with
    | true =>
      rw [recover_fatal hg] at h
      cases h
    | false =>
      rw [recover_recoverable hg] at h
      exact .inr ⟨g, c₁, rfl, hg, h⟩
  | stalled => cases h

end Outcome

namespace Parser
variable {α β : Type}

theorem collect_succ (p : Parser α) (turns : Nat) (c : Cursor) :
    collect p (turns + 1) c =
      (p c).handle (fun v c' => (collect p turns c').map (v :: ·)) fun _ c' =>
        .ok [] (c'.restore c.position) := by
  simp only [collect]
  cases p c <;> rfl

theorem sepBy_eq (spare : Nat) (item : Parser α) (delimiter : Parser β) (c : Cursor) :
    sepBy spare item delimiter c =
      (item c).handle
        (fun v c' => (many spare (map Prod.snd (seq delimiter item)) c').map (v :: ·))
        fun _ c' => .ok [] (c'.restore c.position) := by
  rw [sepBy_apply]
  cases item c <;> rfl

/-- What a tail makes of the tree before it. -/
def joinTail (tail : Parser (Tail α)) (turns : Nat) (tree : Tree α) : Tail α → Parser (Tree α)
  | .more op right => joinTails tail turns (.node op tree right)
  | .last op right => .ok (.node op tree right)

theorem joinTails_succ (tail : Parser (Tail α)) (turns : Nat) (tree : Tree α) (c : Cursor) :
    joinTails tail (turns + 1) tree c =
      (tail c).handle (joinTail tail turns tree) fun _ c' => .ok tree (c'.restore c.position) := by
  simp only [joinTails]
  rcases tail c with ⟨_ | _, _⟩ | _ | _ <;> rfl

end Parser

end Fixity
