import Mathlib.Data.Option.Basic
import Fixity.Proofs.Coherence
import Fixity.Proofs.RunRelations
import Fixity.Proofs.Trace

/-! # Reports side by side

Two parses have the same result if they give the same value, or if they fail with the same
kind of error at the same position with the same description of what was found there
(`SameResult`).  How their expectations are related is left open.

What was found need not be compared: an error describes the token at its position, so over
the same tokens the descriptions are the same if the positions are
(`SameResult.found`).  The rest can be told from where two related runs end, if the relation
between them says enough about the records (`RunRelation.Reports`).
-/
namespace Fixity

/-! ## Errors and results -/

/-- **Errors of one kind at one position**, with related expectations and descriptions. -/
inductive ParseError.Matches (E : List String → List String → Prop) (F : String → String → Prop) :
    ParseError → ParseError → Prop where
  | unexpected {n : Nat} {es es' : List String} {s s' : String} (hE : E es es') (hF : F s s') :
      Matches E F (.unexpected n es s) (.unexpected n es' s')
  | trailing {n : Nat} {es es' : List String} {s s' : String} (hE : E es es') (hF : F s s') :
      Matches E F (.trailing n es s) (.trailing n es' s')

/-- **The same value, or errors that match.** -/
inductive SameResult (E : List String → List String → Prop) (F : String → String → Prop)
    {α : Type} : Except ParseError α → Except ParseError α → Prop where
  | ok (v : α) : SameResult E F (.ok v) (.ok v)
  | error {e e' : ParseError} (h : e.Matches E F e') : SameResult E F (.error e) (.error e')

/-- Nothing is said of two things. -/
def Unrelated {α : Type} : α → α → Prop := fun _ _ => True

variable {E : List String → List String → Prop} {F : String → String → Prop}

theorem ParseError.Matches.found {e e' : ParseError} {ts : List Token} (h : e.Matches E F e')
    (he : e.Coherent ts) (he' : e'.Coherent ts) : e.Matches E Eq e' := by
  have hfound : ∀ {s s' : String} (n : Nat),
      s = (ts[n]?.map Token.description).getD "end of input" →
      s' = (ts[n]?.map Token.description).getD "end of input" → s = s' :=
    fun _ hs hs' => hs.trans hs'.symm
  cases h with
  | unexpected hE _ => exact .unexpected hE (hfound _ he.found_eq he'.found_eq)
  | trailing hE _ => exact .trailing hE (hfound _ he.found_eq he'.found_eq)

theorem ParseError.Matches.ne_stalled {e e' : ParseError} (h : e.Matches E F e') :
    e ≠ .stalled ∧ e' ≠ .stalled := by
  cases h <;> exact ⟨nofun, nofun⟩

/-- **Errors at one position describe the same.** -/
theorem SameResult.found {α : Type} {rule rule' : Rule [] α} {ts : List Token}
    (h : SameResult E F (rule.parse ts) (rule'.parse ts)) :
    SameResult E Eq (rule.parse ts) (rule'.parse ts) := by
  generalize hr : rule.parse ts = r at h ⊢
  generalize hr' : rule'.parse ts = r' at h ⊢
  cases h with
  | ok v => exact .ok v
  | error h =>
    obtain ⟨he, he'⟩ := h.ne_stalled
    exact .error (h.found (Rule.coherent_of_parse hr he) (Rule.coherent_of_parse hr' he'))

theorem SameResult.map {α β : Type} {r r' : Except ParseError α} (h : SameResult E F r r')
    (f : α → β) : SameResult E F (r.map f) (r'.map f) := by
  cases h with
  | ok v => exact .ok (f v)
  | error h => exact .error h

/-- Errors that match the same error, but for the expectations. -/
theorem ParseError.Matches.join {e e' e'' : ParseError} (h : e.Matches E Eq e'')
    (h' : e'.Matches E Eq e'') : e.Matches Unrelated Eq e' := by
  cases h with
  | unexpected _ hF =>
    cases h' with
    | unexpected _ hF' => exact .unexpected trivial (hF.trans hF'.symm)
  | trailing _ hF =>
    cases h' with
    | trailing _ hF' => exact .trailing trivial (hF.trans hF'.symm)

/-- Two results beside the same third one. -/
theorem SameResult.join {α : Type} {r r' r'' : Except ParseError α} (h : SameResult E Eq r r'')
    (h' : SameResult E Eq r' r'') : SameResult Unrelated Eq r r' := by
  cases h with
  | ok v =>
    cases h' with
    | ok => exact .ok v
  | error h =>
    cases h' with
    | error h' => exact .error (h.join h')

theorem Outcome.result_map {α β : Type} (f : α → β) (o : Outcome α) :
    (o.map f).result = o.result.map f := by
  cases o <;> rfl

theorem Rule.parse_map {α β : Type} (f : α → β) (rule : Rule [] α) (ts : List Token) :
    (rule.map f).parse ts = (rule.parse ts).map f :=
  Outcome.result_map f (rule.run (.start ts))

/-! ## The error of a run -/

/-- Failures at one position, with related expectations. -/
structure Failure.Agrees (E : List String → List String → Prop) (f g : Failure) : Prop where
  position : f.position = g.position
  expected : E f.expected g.expected

theorem Failure.Agrees.toError {f g : Failure} (h : f.Agrees E g) (hkind : f.kind = g.kind) :
    f.toError.Matches E Unrelated g.toError := by
  obtain ⟨hpos, hE⟩ := h
  unfold Failure.toError
  rw [← hkind, ← hpos]
  cases f.kind with
  | unexpected => exact .unexpected hE trivial
  | trailing => exact .trailing hE trivial

/-- A record before the failure does not matter. -/
theorem Cursor.errorFor_of_explored_le {c : Cursor} {f : Failure} (h : c.explored ≤ f.position) :
    c.errorFor f = f.toError := by
  unfold Cursor.errorFor
  split
  · rfl
  · unfold Cursor.explored at h
    cases hrec : c.furthest with
    | none => rfl
    | some r =>
      rw [hrec] at h
      simp only at h ⊢
      rw [if_neg (by omega), if_neg (by omega)]

/-- Failures that agree are reported alike, where the records agree. -/
theorem Cursor.matches_errorFor {c d : Cursor} {f g : Failure}
    (hrec : Option.Rel (Failure.Agrees E) c.furthest d.furthest) (h : f.Agrees E g)
    (hfatal : f.isFatal = g.isFatal) (hkind : f.kind = g.kind) :
    (c.errorFor f).Matches E Unrelated (d.errorFor g) := by
  unfold Cursor.errorFor
  rw [← hfatal, ← hkind, ← h.position]
  split
  · exact h.toError hkind
  generalize c.furthest = r at hrec
  generalize d.furthest = s at hrec
  cases hrec with
  | none => exact h.toError hkind
  | @some r s hr =>
    simp only [← hr.position]
    by_cases htrailing : f.kind = .trailing ∧ r.position = f.position
    · rw [if_pos htrailing, if_pos htrailing]
      exact Failure.Agrees.toError ⟨rfl, hr.expected⟩ rfl
    · rw [if_neg htrailing, if_neg htrailing]
      by_cases hlt : f.position < r.position
      · rw [if_pos hlt, if_pos hlt]
        exact Failure.Agrees.toError ⟨rfl, hr.expected⟩ rfl
      · rw [if_neg hlt, if_neg hlt]
        exact h.toError hkind

/-! ## Related runs -/

namespace RunRelation

/-- **A relation between runs that tells what they report**, when they fail and when they
leave tokens unread. -/
structure Reports (R : RunRelation) (E : List String → List String → Prop) : Prop where
  fails {f g : Failure} {c d : Cursor} : R.fails f c g d →
    (c.errorFor f).Matches E Unrelated (d.errorFor g)
  trailing {c d : Cursor} : R.near c d →
    (c.errorFor (c.unmet "end of input").asTrailing).Matches E Unrelated
      (d.errorFor (d.unmet "end of input").asTrailing)

/-- **Related runs have the same result**, when nothing is to be left behind them and the
first of them ends. -/
theorem Reports.toEnd {R : RunRelation} (hR : R.Reports E) {α : Type} {p q : Parser α}
    {c d : Cursor} (h : R.Paired Eq (p c) (q d)) (hends : p c ≠ .stalled) :
    SameResult E Unrelated (Parser.toEnd p c).result (Parser.toEnd q d).result := by
  unfold Parser.toEnd
  generalize p c = o at h hends
  generalize q d = o' at h
  cases h with
  | @ok v _ c' d' hv hnear =>
    cases hv
    simp only [Outcome.bind_ok, ← R.hasNext_eq hnear]
    by_cases hnext : c'.hasNext = true
    · rw [if_pos hnext, if_pos hnext]
      exact .error (hR.trailing hnear)
    · rw [if_neg hnext, if_neg hnext]
      exact .ok v
  | fail h => exact .error (hR.fails h)
  | stalled => exact absurd rfl hends

end RunRelation

end Fixity
