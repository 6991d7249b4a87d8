import Fixity.Proofs.Soundness
import Fixity.Proofs.Trace

/-! # Failing at the first token

A parser **balks** at a token when it fails there without having read anything: its failure
lies at that token, recoverable, and nothing further on gets into the record
(`Parser.Balks`).  A choice balks where all of its alternatives do, and everything that
starts with a parser that balks does so too, the levels of an operator table included.
-/
namespace Fixity

open OperatorTable (Level)

/-- What a failure at the first token leaves behind. -/
structure Cursor.Balked (c : Cursor) (f : Failure) (c' : Cursor) : Prop where
  tokens : c'.tokens = c.tokens
  isFatal : f.isFatal = false
  kind : f.kind = .unexpected
  position : f.position = c.position
  explored : c'.explored = max c.explored (c.position + 1)

/-- A failure where the cursor stands. -/
theorem Cursor.balked_unmet (c : Cursor) (expected : String) :
    c.Balked (c.unmet expected) (c.remember (c.unmet expected)) where
  tokens := rfl
  isFatal := c.isFatal_unmet expected
  kind := c.kind_unmet expected
  position := c.position_unmet expected
  explored := by rw [explored_remember, c.position_unmet]

/-- **The parser fails at the first token**, from each place where `P` holds. -/
def Parser.Balks {α : Type} (p : Parser α) (P : Option Token → Prop) : Prop :=
  ∀ c, P c.peek? → ∃ f c', p c = .fail f c' ∧ c.Balked f c'

namespace Parser.Balks
variable {α β : Type} {p q : Parser α} {P : Option Token → Prop}

theorem token {decode : Token → Option α} {expected : String} (h : ∀ t?, P t? → t?.bind decode = none) :
    (Parser.token decode expected).Balks P := by
  intro c hc
  refine ⟨_, _, ?_, c.balked_unmet expected⟩
  simp only [Parser.token, h _ hc]
  rfl

theorem map {f : α → β} (h : p.Balks P) : (Parser.map f p).Balks P := by
  intro c hc
  obtain ⟨g, c', hp, hbalked⟩ := h c hc
  exact ⟨g, c', by rw [Parser.map, hp, Outcome.map_fail], hbalked⟩

theorem filter {accepts : α → Bool} {expected : String} (h : p.Balks P) :
    (Parser.filter accepts expected p).Balks P := by
  intro c hc
  obtain ⟨g, c', hp, hbalked⟩ := h c hc
  exact ⟨g, c', by rw [Parser.filter, hp, Outcome.bind_fail], hbalked⟩

theorem seq {q : Parser β} (h : p.Balks P) : (Parser.seq p q).Balks P := by
  intro c hc
  obtain ⟨g, c', hp, hbalked⟩ := h c hc
  exact ⟨g, c', by rw [Parser.seq, hp, Outcome.bind_fail], hbalked⟩

theorem many1 (h : p.Balks P) (spare : Nat) : (Parser.many1 spare p).Balks P := by
  rw [Parser.many1_eq_seq]
  exact h.seq

theorem chain {operand : Parser (Tree α)} {tail : Parser (Tail α)} (h : operand.Balks P)
    (spare : Nat) : (Parser.chain spare operand tail).Balks P := by
  intro c hc
  obtain ⟨g, c', hp, hbalked⟩ := h c hc
  exact ⟨g, c', by rw [Parser.chain, hp, Outcome.bind_fail], hbalked⟩

theorem label (h : p.Balks P) (name : String) : (Parser.label name p).Balks P := by
  intro c hc
  obtain ⟨g, c', hp, hbalked⟩ := h c hc
  refine ⟨{ g with expected := [name] }, c'.remember { g with expected := [name] }, ?_, ?_⟩
  · rw [Parser.label, hp, Outcome.recover_recoverable hbalked.isFatal, if_pos hbalked.position]
  · obtain ⟨htok, hsoft, hkind, hpos, hexplored⟩ := hbalked
    refine ⟨htok, hsoft, hkind, hpos, ?_⟩
    rw [Cursor.explored_remember]
    simp only
    omega

/-- Alternatives behind some that have failed at the first token. -/
theorem tryEach {ps : List (Parser α)} (h : ∀ p ∈ ps, p.Balks P) {c c' : Cursor} {f : Failure}
    (hc : P c.peek?) (hf : c.Balked f c') (hpos : c'.position = c.position) :
    ∃ g d, Parser.tryEach c.position ps (some f) c' = .fail g d ∧ c.Balked g d := by
  induction ps generalizing f c' with
  | nil => exact ⟨f, c', rfl, hf⟩
  | cons p ps ih =>
    obtain ⟨hp, hps⟩ := List.forall_mem_cons.mp h
    have hpeek : c'.peek? = c.peek? := Cursor.peek?_congr hf.tokens hpos
    obtain ⟨g, d, hpc, hg⟩ := hp c' (hpeek ▸ hc)
    rw [Parser.Tracks.tryEach_cons, hpc, Outcome.recover_recoverable hg.isFatal]
    refine ih hps ⟨hg.tokens.trans hf.tokens, Failure.isFatal_merge hf.isFatal hg.isFatal,
      Failure.kind_merge hf.kind hg.kind, ?_, ?_⟩ rfl
    · have hmerge := f.position_merge g
      have hposf := hf.position
      have hposg := hg.position
      show (f.merge g).position = c.position
      omega
    · have hseenf := hf.explored
      have hseeng := hg.explored
      rw [Cursor.explored_restore]
      omega

theorem firstOf {ps : List (Parser α)} (h : ∀ p ∈ ps, p.Balks P) (hne : ps ≠ []) :
    (Parser.firstOf ps).Balks P := by
  intro c hc
  obtain ⟨p, ps, rfl⟩ := List.exists_cons_of_ne_nil hne
  obtain ⟨hp, hps⟩ := List.forall_mem_cons.mp h
  obtain ⟨g, d, hpc, hg⟩ := hp c hc
  show ∃ f c', Parser.tryEach c.position (p :: ps) none c = _ ∧ _
  rw [Parser.Tracks.tryEach_cons, hpc, Outcome.recover_recoverable hg.isFatal]
  exact tryEach hps hc ⟨hg.tokens, hg.isFatal, hg.kind, hg.position, hg.explored⟩ rfl

/-- A choice of two. -/
theorem or (h : p.Balks P) (h' : q.Balks P) : (Parser.or p q).Balks P := by
  intro c hc
  obtain ⟨f, d, hp, hf⟩ := h c hc
  have hpeek : (d.restore c.position).peek? = c.peek? := Cursor.peek?_congr hf.tokens rfl
  obtain ⟨g, d', hq, hg⟩ := h' (d.restore c.position) (hpeek ▸ hc)
  refine ⟨f.merge g, d'.restore c.position, ?_, hg.tokens.trans hf.tokens,
    Failure.isFatal_merge hf.isFatal hg.isFatal, Failure.kind_merge hf.kind hg.kind, ?_, ?_⟩
  · rw [Parser.or, hp, Outcome.recover_recoverable hf.isFatal, hq,
      Outcome.recover_recoverable hg.isFatal]
  · have hmerge := f.position_merge g
    have hposf := hf.position
    have hposg : g.position = c.position := hg.position
    omega
  · have hseenf := hf.explored
    have hseeng : d'.explored = max d.explored (c.position + 1) := hg.explored
    rw [Cursor.explored_restore]
    omega

/-- A recursive parser balks if its body does, whatever it is given for itself. -/
theorem fix {body : Parser α → Parser α} (h : ∀ self, (body self).Balks P) (spare : Nat) :
    (Parser.fix spare body).Balks P := by
  intro c hc
  have hturn : Parser.fix spare body c = body (Parser.iterate body (c.remaining + spare)) c := by
    show Parser.iterate _ (c.turns spare) c = _
    rw [Cursor.turns, Nat.add_right_comm]
    rfl
  rw [hturn]
  exact h _ c hc

end Parser.Balks

namespace Grammar
variable {Γ : List Type} {table : OperatorTable} {spare : Nat} {env : Env Γ}
  {P : Option Token → Prop}

theorem balks_symbol {text : String} (h : ∀ t?, P t? → t? ≠ some (.symbol text)) :
    ((Rule.symbol text : Rule Γ String).eval spare env).Balks P := by
  refine .token fun t? ht => ?_
  cases t? with
  | none => rfl
  | some t => exact if_neg fun heq => h _ ht (congrArg some heq)

/-- The token is a backslash. -/
def IsBackslash (t? : Option Token) : Prop := t? = some (.symbol "\\")

theorem balks_parenthesis : ((Rule.symbol "(" : Rule Γ String).eval spare env).Balks IsBackslash :=
  balks_symbol fun t? ht => by
    rw [show t? = _ from ht]
    decide

theorem balks_name : ((name table : Rule Γ Name).eval spare env).Balks IsBackslash := by
  refine .label (.or (.map (.filter (.token ?_))) (.map (.map (.seq (.map (.seq ?_)))))) _
  · rintro _ rfl
    rfl
  · exact balks_parenthesis

/-- **No term starts with a backslash.** -/
theorem balks_term {expression : Rule Γ Expr} :
    ((term table expression).eval spare env).Balks IsBackslash := by
  show (Parser.label _ ((Rule.oneOf _).eval spare env)).Balks _
  rw [Rule.eval_oneOf]
  refine .label (.firstOf ?_ (List.cons_ne_nil _ _)) _
  simp only [List.map_cons, List.map_nil, List.forall_mem_cons]
  refine ⟨.map balks_name, .map (.token ?_), .map (.seq (.map (.seq balks_parenthesis))), nofun⟩
  rintro _ rfl
  rfl

/-- What the tightest level balks at, every level does. -/
theorem balks_levelRules {α : Type} (levels : List Level) {operand : Rule Γ (Tree α)}
    (h : (operand.eval spare env).Balks P) :
    ((Tree.levelRules Token.symbol? levels operand).eval spare env).Balks P := by
  induction levels with
  | nil => exact h
  | cons level levels ih => exact .fix (fun _ => .chain ih spare) spare

end Grammar

end Fixity
