import Mathlib.Data.List.Nodup
import Fixity.Proofs.Parsing
import Fixity.Proofs.RunLaws

/-! # Failures tell the truth

A failure is **coherent** with the tokens if it lies among them or at their end, describes
the token that is there, and expects something, nothing of it twice
(`Failure.Coherent`).  A cursor is coherent if it stands among the tokens and its record
is coherent.

Every run keeps this (`coherence`): from a coherent cursor, the cursor that is left
behind is coherent too, does not stand further back and has no shallower record; and a
failure is coherent and does not lie before the cursor that it leaves behind.  Failures are
made in one place and merged, named anew, made fatal or put into the record in others,
while the cursor is moved back; each of these steps has its lemma here.

So the errors of a parse name what is really there
(`Language.runs_kept_and_errors_coherent`).
-/
namespace Fixity

/-- The texts of error messages for tokens differ from the one for the end of the input. -/
theorem Token.description_ne_end (t : Token) : t.description ≠ "end of input" := by
  intro h
  have hchars := congrArg String.toList h
  cases t <;> simp [Token.description] at hchars

/-! ## Coherent failures -/

/-- **A failure that tells the truth about the tokens.** -/
structure Failure.Coherent (ts : List Token) (f : Failure) : Prop where
  position_le : f.position ≤ ts.length
  found_eq : f.found = ts[f.position]?.map Token.description
  expected_ne_nil : f.expected ≠ []
  nodup : f.expected.Nodup

theorem addExpectation_ne_nil (expected : List String) (text : String) :
    addExpectation expected text ≠ [] := by
  unfold addExpectation
  split
  · exact List.ne_nil_of_mem ‹_›
  · simp

theorem nodup_addExpectation {expected : List String} (h : expected.Nodup) (text : String) :
    (addExpectation expected text).Nodup := by
  unfold addExpectation
  split
  · exact h
  · rename_i hnew
    exact h.append (List.nodup_singleton _) (List.disjoint_singleton.mpr hnew)

theorem foldl_addExpectation {expected : List String} (hne : expected ≠ []) (h : expected.Nodup)
    (texts : List String) :
    texts.foldl addExpectation expected ≠ [] ∧ (texts.foldl addExpectation expected).Nodup := by
  induction texts generalizing expected with
  | nil => exact ⟨hne, h⟩
  | cons text texts ih => exact ih (addExpectation_ne_nil _ _) (nodup_addExpectation h _)

namespace Failure.Coherent
variable {ts : List Token} {f g : Failure}

theorem toFatal (h : f.Coherent ts) : f.toFatal.Coherent ts :=
  ⟨h.position_le, h.found_eq, h.expected_ne_nil, h.nodup⟩

theorem asTrailing (h : f.Coherent ts) : f.asTrailing.Coherent ts :=
  ⟨h.position_le, h.found_eq, h.expected_ne_nil, h.nodup⟩

/-- A name for what is expected. -/
theorem named (h : f.Coherent ts) (name : String) :
    Coherent ts { f with expected := [name] } :=
  ⟨h.position_le, h.found_eq, List.cons_ne_nil _ _, List.nodup_singleton _⟩

theorem merge (hf : f.Coherent ts) (hg : g.Coherent ts) : (f.merge g).Coherent ts := by
  unfold Failure.merge
  split
  · exact hf
  split
  · exact hg
  · rename_i hle hge
    have hpos : f.position = g.position := by omega
    obtain ⟨hne, hnodup⟩ := foldl_addExpectation hf.expected_ne_nil hf.nodup g.expected
    refine ⟨hf.position_le, ?_, hne, hnodup⟩
    -- Both describe the token at the same position.
    show f.found.or g.found = _
    rw [hf.found_eq, hg.found_eq, hpos, Option.or_self]

end Failure.Coherent

/-! ## Coherent cursors -/

/-- **A cursor among the tokens**, with a coherent record. -/
structure Cursor.Coherent (c : Cursor) : Prop where
  position_le : c.position ≤ c.tokens.length
  furthest : ∀ f, c.furthest = some f → f.Coherent c.tokens

theorem Cursor.coherent_start (ts : List Token) : (Cursor.start ts).Coherent :=
  ⟨Nat.zero_le _, nofun⟩

theorem Cursor.Coherent.unmet {c : Cursor} (h : c.Coherent) (expected : String) :
    (c.unmet expected).Coherent c.tokens := by
  unfold Cursor.unmet
  have hne := addExpectation_ne_nil [] expected
  have hnodup := nodup_addExpectation List.nodup_nil expected
  split
  · rename_i t ht
    exact ⟨h.position_le, (congrArg (Option.map Token.description) ht).symm, hne, hnodup⟩
  · rename_i hnone
    exact ⟨h.position_le, (congrArg (Option.map Token.description) hnone).symm, hne, hnodup⟩

/-- **What a run does to the cursor**: it stays in the input, does not move back and
forgets nothing. -/
structure Cursor.Follows (c c' : Cursor) : Prop where
  tokens : c'.tokens = c.tokens
  position_le : c.position ≤ c'.position
  coherent : c'.Coherent
  deeper : ∀ f, c.furthest = some f → ∃ g, c'.furthest = some g ∧ f.position ≤ g.position

namespace Cursor.Follows
variable {c c' c'' : Cursor} {f g : Failure}

theorem refl (h : c.Coherent) : c.Follows c :=
  ⟨rfl, Nat.le_refl _, h, fun f hf => ⟨f, hf, Nat.le_refl _⟩⟩

theorem trans (h : c.Follows c') (h' : c'.Follows c'') : c.Follows c'' := by
  refine ⟨h'.tokens.trans h.tokens, Nat.le_trans h.position_le h'.position_le, h'.coherent, ?_⟩
  intro f hf
  obtain ⟨g, hg, hle⟩ := h.deeper f hf
  obtain ⟨k, hk, hle'⟩ := h'.deeper g hg
  exact ⟨k, hk, Nat.le_trans hle hle'⟩

/-- The cursor is moved back to where the run started. -/
theorem restore (h : c.Follows c') (hc : c.Coherent) : c.Follows (c'.restore c.position) := by
  refine ⟨h.tokens, Nat.le_refl _, ⟨?_, h.coherent.furthest⟩, h.deeper⟩
  show c.position ≤ c'.tokens.length
  rw [h.tokens]
  exact hc.position_le

theorem advance (hc : c.Coherent) (hnext : c.hasNext = true) : c.Follows c.advance := by
  have hlt : c.position < c.tokens.length := of_decide_eq_true hnext
  rw [Cursor.advance, if_pos hnext]
  exact ⟨rfl, Nat.le_succ _, ⟨hlt, hc.furthest⟩, fun f hf => ⟨f, hf, Nat.le_refl _⟩⟩

/-- A failure is put into the record. -/
theorem remember (h : c.Follows c') (hf : f.Coherent c.tokens) : c.Follows (c'.remember f) := by
  have hf' : f.Coherent c'.tokens := h.tokens.symm ▸ hf
  have hrecord : ∃ k, (c'.remember f).furthest = some k ∧ k.Coherent c'.tokens ∧
      ∀ g, c'.furthest = some g → g.position ≤ k.position := by
    unfold Cursor.remember
    cases hg : c'.furthest with
    | none => exact ⟨f, rfl, hf', nofun⟩
    | some g =>
      refine ⟨g.merge f, rfl, (h.coherent.furthest g hg).merge hf', fun g' hg' => ?_⟩
      cases hg'
      have hpos := g.position_merge f
      omega
  obtain ⟨k, hk, hcoh, hle⟩ := hrecord
  refine ⟨h.tokens, h.position_le, ⟨h.coherent.position_le, ?_⟩, ?_⟩
  · intro f' hf'
    rw [hk] at hf'
    cases hf'
    exact hcoh
  · intro f' hf'
    obtain ⟨g, hg, hdeep⟩ := h.deeper f' hf'
    exact ⟨k, hk, Nat.le_trans hdeep (hle g hg)⟩

theorem rememberFatal (h : c.Follows c') : c.Follows (c'.rememberFatal f) :=
  ⟨h.tokens, h.position_le, ⟨h.coherent.position_le, h.coherent.furthest⟩, h.deeper⟩

end Cursor.Follows

/-- **What a failing run leaves behind**: a coherent failure that does not lie before the
cursor. -/
structure Cursor.Fails (c : Cursor) (f : Failure) (c' : Cursor) : Prop where
  follows : c.Follows c'
  coherent : f.Coherent c.tokens
  position_le : c'.position ≤ f.position

namespace Cursor.Fails
variable {c c' c'' : Cursor} {f g : Failure}

/-- A run may count as started earlier. -/
theorem rebase (h : c'.Fails f c'') (hc : c.Follows c') : c.Fails f c'' :=
  ⟨hc.trans h.follows, hc.tokens ▸ h.coherent, h.position_le⟩

theorem unmet (hc : c.Coherent) (expected : String) : c.Fails (c.unmet expected) c :=
  ⟨.refl hc, hc.unmet expected, Nat.le_of_eq (c.position_unmet expected).symm⟩

/-- The failure is put into the record. -/
theorem remember (h : c.Fails f c') : c.Fails f (c'.remember f) :=
  ⟨h.follows.remember h.coherent, h.coherent, h.position_le⟩

/-- The failure as one of a run that starts where the cursor is moved back to. -/
theorem again (h : c.Fails f c') (hc : c.Coherent) :
    (c'.restore c.position).Fails f (c'.restore c.position) := by
  refine ⟨.refl (h.follows.restore hc).coherent, ?_, ?_⟩
  · exact h.follows.tokens.symm ▸ h.coherent
  · exact Nat.le_trans h.follows.position_le h.position_le

/-- The failure of two alternatives that both go back. -/
theorem merge (h : c.Fails f c') (h' : c.Fails g c'') (hc : c.Coherent) :
    c.Fails (f.merge g) (c''.restore c.position) := by
  refine ⟨h'.follows.restore hc, h.coherent.merge h'.coherent, ?_⟩
  have hle := Nat.le_trans h.follows.position_le h.position_le
  have hpos := f.position_merge g
  show c.position ≤ _
  omega

end Cursor.Fails

/-- **The law of coherent runs.**  A run from a coherent cursor leaves a coherent one
behind, and its failure is coherent too. -/
def coherence : RunLaw where
  start := Cursor.Coherent
  moves := Cursor.Follows
  fails := Cursor.Fails
  refl := .refl
  trans := .trans
  rebase hc h := h.rebase hc
  start_of_moves h := h.coherent
  advance := .advance
  giveUp hc h := h.restore hc
  rescue hc h := h.follows.restore hc
  unmet expected hc := .unmet hc expected
  again hc h := h.again hc
  remember h := h.remember
  merge hc h h' := h.merge h' hc
  named name h := ⟨h.follows, h.coherent.named name, h.position_le⟩
  asTrailing h := ⟨h.follows, h.coherent.asTrailing, h.position_le⟩
  toFatal h := ⟨h.follows, h.coherent.toFatal, h.position_le⟩
  rememberFatal h := ⟨h.follows.rememberFatal, h.coherent, h.position_le⟩

/-! ## Errors -/

/-- **An error that tells the truth about the tokens.** -/
structure ParseError.Coherent (ts : List Token) (e : ParseError) : Prop where
  position_le : e.position ≤ ts.length
  found_eq : e.found = (ts[e.position]?.map Token.description).getD "end of input"
  expected_ne_nil : e.expected ≠ []
  nodup : e.expected.Nodup

/-- The end of the input is reported exactly at the end. -/
theorem ParseError.Coherent.found_eq_end_iff {ts : List Token} {e : ParseError}
    (h : e.Coherent ts) : e.found = "end of input" ↔ e.position = ts.length := by
  rw [h.found_eq]
  constructor
  · intro hfound
    refine Nat.le_antisymm h.position_le (Nat.le_of_not_lt fun hlt => ?_)
    rw [List.getElem?_eq_getElem hlt] at hfound
    exact Token.description_ne_end _ hfound
  · intro hpos
    rw [List.getElem?_eq_none (Nat.le_of_eq hpos.symm)]
    rfl

theorem Failure.Coherent.toError {ts : List Token} {f : Failure} (h : f.Coherent ts) :
    f.toError.Coherent ts := by
  have hfound := congrArg (Option.getD · "end of input") h.found_eq
  unfold Failure.toError
  split <;> exact ⟨h.position_le, hfound, h.expected_ne_nil, h.nodup⟩

/-- The error that is chosen for a failure, with the record or without. -/
theorem Cursor.Coherent.errorFor {c : Cursor} {f : Failure} (hc : c.Coherent)
    (hf : f.Coherent c.tokens) : (c.errorFor f).Coherent c.tokens := by
  unfold Cursor.errorFor
  split
  · exact hf.toError
  split
  · exact hf.toError
  · rename_i g hg
    have hrecord := hc.furthest g hg
    split
    · have h : Failure.Coherent c.tokens { f with expected := g.expected } :=
        ⟨hf.position_le, hf.found_eq, hrecord.expected_ne_nil, hrecord.nodup⟩
      exact h.toError
    split
    · have h : Failure.Coherent c.tokens { g with kind := .unexpected } :=
        ⟨hrecord.position_le, hrecord.found_eq, hrecord.expected_ne_nil, hrecord.nodup⟩
      exact h.toError
    · exact hf.toError

/-- The error of a rule that does not go round for ever. -/
theorem Rule.coherent_of_parse {α : Type} {rule : Rule [] α} {ts : List Token} {e : ParseError}
    (h : rule.parse ts = .error e) (he : e ≠ .stalled) : e.Coherent ts := by
  have hkept := coherence.keeps_eval 0 rule .nil nofun _ (Cursor.coherent_start ts)
  unfold Rule.parse Rule.run at h
  generalize rule.eval 0 .nil (.start ts) = o at h hkept
  cases hkept with
  | ok => cases h
  | @fail f c' hfails =>
    cases h
    have htok : c'.tokens = ts := hfails.follows.tokens
    have hf : f.Coherent c'.tokens := htok.symm ▸ hfails.coherent
    exact htok ▸ hfails.follows.coherent.errorFor hf
  | stalled =>
    cases h
    exact absurd rfl he

namespace Language

theorem coherent_of_parse (L : Language) {ts : List Token} {e : ParseError}
    (h : L.parse ts = .error e) : e.Coherent ts := by
  refine Rule.coherent_of_parse h ?_
  have hv := L.verdict_parse ts
  rw [h] at hv
  cases hv <;> exact nofun

theorem coherent_of_parseExpression (L : Language) {ts : List Token} {e : ParseError}
    (h : L.parseExpression ts = .error e) : e.Coherent ts := by
  refine Rule.coherent_of_parse h ?_
  have hv := L.verdict_parseExpression ts
  rw [h] at hv
  cases hv <;> exact nofun

/-- **Every run keeps its cursor and its failure coherent, and every error tells the
truth.**  A run from a coherent cursor leaves a coherent one behind, no further back and
with no shallower record, and fails coherently if it fails.  An error of a parse describes
the token at its position, or the end of the input exactly if it lies there, and expects
something, nothing of it twice. -/
theorem runs_kept_and_errors_coherent :
    (∀ {α : Type} (rule : Rule [] α) (spare : Nat) (c : Cursor), c.Coherent →
      coherence.Kept c (rule.eval spare .nil c)) ∧
    ∀ (L : Language) (ts : List Token) (e : ParseError),
      L.parse ts = .error e ∨ L.parseExpression ts = .error e →
        e.Coherent ts ∧ (e.found = "end of input" ↔ e.position = ts.length) := by
  refine ⟨fun rule spare c hc => coherence.keeps_eval spare rule .nil nofun c hc, ?_⟩
  intro L ts e he
  have hcoherent : e.Coherent ts := by
    rcases he with he | he
    · exact L.coherent_of_parse he
    · exact L.coherent_of_parseExpression he
  exact ⟨hcoherent, hcoherent.found_eq_end_iff⟩

/-- A run that starts behind a token, with a failure at that token in the record, and an
error at a parenthesis. -/
theorem runs_kept_and_errors_coherent_standard :
    coherence.Kept
      ⟨[.symbol "(", .symbol ")"], 1,
        some ⟨0, ["literal"], some "'('", .recoverable, .unexpected⟩, []⟩
      (standard.expression.eval 0 .nil
        ⟨[.symbol "(", .symbol ")"], 1,
          some ⟨0, ["literal"], some "'('", .recoverable, .unexpected⟩, []⟩) ∧
    ParseError.Coherent [.symbol "(", .word "a", .symbol "+", .symbol ")"]
      (.unexpected 3 ["identifier", "'('", "literal", "expression"] "')'") := by
  have he : standard.parseExpression [.symbol "(", .word "a", .symbol "+", .symbol ")"] =
      .error (.unexpected 3 ["identifier", "'('", "literal", "expression"] "')'") := by
    decide +kernel
  refine ⟨runs_kept_and_errors_coherent.1 _ 0 _ ⟨by decide, ?_⟩,
    (runs_kept_and_errors_coherent.2 standard _ _ (Or.inr he)).1⟩
  rintro f ⟨⟩
  exact ⟨by decide, by decide, by decide, by decide⟩

end Language

end Fixity
