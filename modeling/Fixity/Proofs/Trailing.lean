import Fixity.Proofs.Diagnosis
import Fixity.Proofs.Lines
import Fixity.Proofs.Trace

/-! # Trailing input

Behind a complete program, some tokens can stand under no circumstances
(`Grammar.Foreign`): they start no term, are no operator and no line break.  The run over
the program stops in front of such a token, whatever follows it.  So no accepted input
goes on with it, and since beginnings can be completed, no beginning does: nothing behind
the token is in the record (`Grammar.Foreign.linesParser_eq_ok`).  The error is therefore
about trailing input, and lies at the token (`Language.parse_append_eq_trailing`).
-/
namespace Fixity

/-- The error about what is left behind a value, where the record is not deeper. -/
theorem Cursor.At.errorFor_unmet {c : Cursor} {all rest : List Token} {t : Token}
    (hc : c.At all (t :: rest)) (hseen : c.explored ≤ c.position + 1) :
    ∃ expected, c.errorFor (c.unmet "end of input").asTrailing =
      .trailing c.position expected t.description := by
  have hunmet : (c.unmet "end of input").asTrailing =
      ⟨c.position, ["end of input"], some t.description, .recoverable, .trailing⟩ := by
    rw [Cursor.unmet, hc.peek?]
    rfl
  rw [hunmet]
  unfold Cursor.explored at hseen
  unfold Cursor.errorFor
  rw [if_neg (by simp [Failure.isFatal])]
  split
  · exact ⟨_, rfl⟩
  · rename_i g hg
    rw [hg] at hseen
    split
    · exact ⟨_, rfl⟩
    split
    · rename_i hlt
      simp only at hseen hlt
      omega
    · exact ⟨_, rfl⟩

namespace Grammar
variable {table : OperatorTable} {ts : List Token} {g : Token} {bs : List Binding}

/-- **A token that cannot stand behind a program**, nor start one where there is none. -/
structure Foreign (table : OperatorTable) (ts : List Token) (g : Token) : Prop where
  stops : Stops table.levels [g]
  notBreak : g ≠ .newline
  notLet : ts = [] → g ≠ .word "let"

namespace Foreign

theorem accepts (hg : Foreign table ts g) (hv : table.Valid)
    (h : Derives table (.program ⟨bs⟩) ts) (rest : List Token) :
    (linesParser table).Accepts ts (g :: rest) (· = bs) :=
  accepts_bindings hv h hg.stops (by simpa using hg.notBreak) (by simpa using hg.notLet)

/-- No program goes on with a token that cannot stand behind it. -/
theorem not_derives (hg : Foreign table ts g) (hv : table.Valid)
    (h : Derives table (.program ⟨bs⟩) ts) (us : List Token) (q : Program) :
    ¬ Derives table (.program q) (ts ++ g :: us) := by
  intro hq
  -- One run cannot stop in front of the token and at the end.
  have hfirst := hg.accepts hv h us
  have hsecond : (linesParser table).Accepts (ts ++ g :: us) [] (· = q.bindings) :=
    accepts_bindings hv hq (stops_nil _) (by simp) (by simp)
  have hstart := Cursor.at_start (ts ++ g :: us)
  obtain ⟨_, c, hc, hat, -⟩ := hfirst _ _ hstart
  obtain ⟨_, c', hc', hat', -⟩ := hsecond _ _ (by rwa [List.append_nil])
  rw [hc] at hc'
  cases hc'
  have hlen := hat.length
  have hlen' := hat'.length
  simp only [List.length_cons, List.length_nil] at hlen hlen'
  omega

/-- Nor does the beginning of one. -/
theorem not_begins (hg : Foreign table ts g) (hv : table.Valid)
    (h : Derives table (.program ⟨bs⟩) ts) (us : List Token) :
    ¬ Begins table .program (ts ++ g :: us) := by
  intro hb
  rcases hb.completes with ⟨-, before, heq, vs, q, hq⟩ | ⟨vs, q, hq⟩
  · -- What is stuck ends in a parenthesis, which the token is not.
    rcases List.eq_nil_or_concat us with rfl | ⟨us, t, rfl⟩
    · have hlast : ts ++ [g] = before ++ [.word "let"] ++ [.symbol "("] := by simpa using heq
      obtain ⟨-, hopen⟩ := List.append_inj' hlast rfl
      cases hopen
      exact (hg.stops _ rfl).1 rfl
    · have hlast : ts ++ g :: us ++ [t] = before ++ [.word "let"] ++ [.symbol "("] := by
        simpa using heq
      obtain ⟨hinit, -⟩ := List.append_inj' hlast rfl
      rw [← hinit] at hq
      exact hg.not_derives hv h (us ++ vs) q (by simpa using hq)
  · exact hg.not_derives hv h (us ++ vs) q (by simpa using hq)

theorem length_le_of_begins (hg : Foreign table ts g) (hv : table.Valid)
    (h : Derives table (.program ⟨bs⟩) ts) {vs rest r : List Token}
    (hsplit : ts ++ g :: rest = vs ++ r) (hb : Begins table .program vs) :
    vs.length ≤ ts.length := by
  rcases List.append_eq_append_iff.mp hsplit with ⟨us, rfl, hus⟩ | ⟨us, rfl, -⟩
  · cases us with
    | nil => simp
    | cons t us =>
      obtain ⟨rfl, -⟩ := List.cons.inj hus
      exact absurd hb (hg.not_begins hv h us)
  · simp

/-- **The run over a program stops** in front of a token that cannot stand behind it, and
nothing behind the token is in the record. -/
theorem linesParser_eq_ok (hg : Foreign table ts g) (hv : table.Valid)
    (h : Derives table (.program ⟨bs⟩) ts) (rest : List Token) :
    ∃ c, linesParser table (.start (ts ++ g :: rest)) = .ok bs c ∧
      c.At (ts ++ g :: rest) (g :: rest) ∧ c.explored ≤ c.position + 1 := by
  have hstart := Cursor.at_start (ts ++ g :: rest)
  obtain ⟨_, c, hc, hat, rfl⟩ := hg.accepts hv h rest _ _ hstart
  refine ⟨c, hc, hat, ?_⟩
  have hread : Reading _ _ _ _ _ _ (linesParser table (.start (ts ++ g :: rest))) :=
    reads_bindings _ _ _ hstart (Nat.lt_succ_self _)
  rw [hc] at hread
  cases hread with
  | @ok _ _ us r hall hat' hdone hrec =>
    have hlen := hat.length
    have hlen' := hat'.length
    have hus := congrArg List.length hall
    simp only [List.length_append, List.length_cons] at hlen hlen' hus
    refine hrec.explored_le ?_
    rintro vs q ⟨r', hsplit, hq⟩ hseen
    have hle : vs.length ≤ ts.length := by
      rcases hseen with hbegun | ⟨hle, -⟩
      · exact hg.length_le_of_begins hv h hsplit hbegun
      · omega
    have hvs := congrArg List.length hsplit
    simp only [List.length_append, List.length_cons] at hvs hq
    omega

end Foreign

end Grammar

namespace Language
variable (L : Language)

/-- **Trailing input is reported as such.** -/
theorem parse_append_eq_trailing (ts rest : List Token) (g : Token) (p : Program)
    (h : L.parse ts = .ok p)
    (hg : (∃ s, g = .symbol s ∧ s ≠ "(" ∧ L.isOperator s = false) ∨ g = .word "let" ∧ ts ≠ []) :
    ∃ expected, L.parse (ts ++ [g] ++ rest) =
      .error (.trailing ts.length expected g.description) := by
  have hforeign : Grammar.Foreign L.table ts g := by
    rcases hg with ⟨s, rfl, hopen, hop⟩ | ⟨rfl, hne⟩
    · refine ⟨?_, Token.noConfusion, fun _ => Token.noConfusion⟩
      intro t ht
      cases ht
      refine ⟨hopen, fun op hmem heq => ?_⟩
      have hdecl := OperatorTable.declares_of_mem_levels hmem
      rw [← Token.symbol.inj heq] at hdecl
      exact Bool.false_ne_true (hop.symm.trans hdecl)
    · refine ⟨?_, Token.noConfusion, fun hnil => absurd hnil hne⟩
      intro t ht
      cases ht
      exact ⟨fun hstart => hstart rfl, by simp⟩
  obtain ⟨c, hc, hat, hseen⟩ := hforeign.linesParser_eq_ok L.valid (L.derives_of_parse h) rest
  obtain ⟨expected, he⟩ := hat.errorFor_unmet hseen
  have hpos : c.position = ts.length := by
    have hlen := hat.length
    rw [List.length_append] at hlen
    omega
  refine ⟨expected, ?_⟩
  rw [List.append_assoc, List.singleton_append, L.parse_eq_lines, Parser.toEnd, hc,
    Outcome.bind_ok, if_pos (hat.hasNext.mpr (List.cons_ne_nil _ _)), Outcome.result, he, hpos]
  rfl

/-- A parenthesis behind a binding that nothing opens, and a further line. -/
theorem parse_append_eq_trailing_standard :
    ∃ expected, standard.parse ([.word "let", .word "x", .symbol "=", .word "a"] ++
        [.symbol ")"] ++ [.newline, .word "let"]) = .error (.trailing 4 expected "')'") := by
  have h : standard.parse [.word "let", .word "x", .symbol "=", .word "a"] =
      .ok ⟨[⟨.word "x", .name (.word "a")⟩]⟩ := by decide +kernel
  exact parse_append_eq_trailing standard _ [.newline, .word "let"] (.symbol ")") _ h
    (Or.inl ⟨")", rfl, by decide, by decide⟩)

end Language

end Fixity
