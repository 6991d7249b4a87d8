import Mathlib.Data.List.Chain
import Fixity.Proofs.Balance
import Fixity.Proofs.Parsing

/-! # Where errors lie and what they are

An error lies behind a phrase or behind the beginning of one (`Verdict`), and which of
the two it is can be seen from its kind, since no beginning is a phrase
(`Language.isTrailing_iff_accepted`).

**Beginnings can be completed** (`Begins.completes`): with a name where a term is
missing, with the parenthesis, arrow or equals sign that is open.  So the tokens before
an error are the start of some accepted input.  The one exception is a parenthesis
behind `let` in a language without operators: the rule for names reads it, and nothing
can follow (`Language.take_position_extends_iff`).
-/
namespace Fixity

namespace Grammar
variable {table : OperatorTable} {ts us : List Token} {part : Part}

/-! ## Completing a beginning -/

/-- Tokens are a phrase of a part of speech.  Tails can stand behind any operand. -/
def Completes (table : OperatorTable) (ts : List Token) : Part → Prop
  | .name => ∃ x, Derives table (.name x) ts
  | .term => ∃ e, Derives table (.term e) ts
  | .arguments => ∃ es, Derives table (.arguments es) ts
  | .operation ks => ∃ e, Derives table (.operation ks e) ts
  | .tails k tighter => ∀ left, ∃ e, Derives table (.tails k tighter left e) ts
  | .expression => ∃ e, Derives table (.expression e) ts
  | .binding => ∃ b, Derives table (.binding b) ts
  | .further => ∃ bs, Derives table (.further bs) ts
  | .program => ∃ p, Derives table (.program p) ts

/-- Tokens are the start of a phrase. -/
def Extends (table : OperatorTable) (part : Part) (ts : List Token) : Prop :=
  ∃ us, Completes table (ts ++ us) part

/-- Tokens that end in a parenthesis where a binding has its name, and no operator can
follow.  Without the parenthesis they are the start of a phrase. -/
def Stuck (table : OperatorTable) (part : Part) (ts : List Token) : Prop :=
  table.operators = [] ∧ ∃ before, ts = before ++ [.word "let", .symbol "("] ∧
    Extends table part (before ++ [.word "let"])

theorem Stuck.append (ts : List Token) {part' : Part} (h : Stuck table part us)
    (he : ∀ vs, Extends table part vs → Extends table part' (ts ++ vs)) :
    Stuck table part' (ts ++ us) := by
  obtain ⟨hempty, before, rfl, hext⟩ := h
  refine ⟨hempty, ts ++ before, by rw [List.append_assoc], ?_⟩
  rw [List.append_assoc]
  exact he _ hext

/-- The shortest expression there is. -/
theorem derives_word {w : String} (hw : w ≠ "let") :
    Derives table (.expression (.name (.word w))) [.word w] :=
  derives_of_operation (derives_of_term (.name (.word hw)) _)

/-- A binding can be completed behind its name. -/
theorem extends_bound (us : List Token) {x : Name} (h : Derives table (.name x) (ts ++ us)) :
    Extends table .binding (.word "let" :: ts) := by
  have hx : "x" ≠ "let" := by decide
  refine ⟨us ++ [.symbol "=", .word "x"], ⟨x, .name (.word "x")⟩, ?_⟩
  simpa using Derives.binding h (derives_word hx)

theorem extends_further (h : Extends table .binding ts) :
    Extends table .further (.newline :: ts) := by
  obtain ⟨us, b, hb⟩ := h
  exact ⟨us, [b], by simpa using Derives.further hb .noFurther⟩

theorem extends_nextFurther {b : Binding} (hb : Derives table (.binding b) ts)
    (h : Extends table .further us) : Extends table .further (.newline :: (ts ++ us)) := by
  obtain ⟨vs, bs, hbs⟩ := h
  exact ⟨vs, b :: bs, by simpa using Derives.further hb hbs⟩

theorem extends_first (h : Extends table .binding ts) : Extends table .program ts := by
  obtain ⟨us, b, hb⟩ := h
  exact ⟨us, ⟨[b]⟩, by simpa using Derives.program hb .noFurther⟩

theorem extends_program {b : Binding} (hb : Derives table (.binding b) ts)
    (h : Extends table .further us) : Extends table .program (ts ++ us) := by
  obtain ⟨vs, bs, hbs⟩ := h
  exact ⟨vs, ⟨b :: bs⟩, by simpa using Derives.program hb hbs⟩

/-- **Beginnings can be completed**, but for a parenthesis where a name must stand and
there is no operator. -/
theorem Begins.completes (h : Begins table part ts) :
    match part with
    | .name => table.operators = [] ∧ ts = [.symbol "("] ∨ Extends table .name ts
    | .binding => Stuck table .binding ts ∨ Extends table .binding ts
    | .further => Stuck table .further ts ∨ Extends table .further ts
    | .program => Stuck table .program ts ∨ Extends table .program ts
    | part => Extends table part ts := by
  have hx : "x" ≠ "let" := by decide
  induction h with
  | name => exact Or.inr ⟨[.word "x"], _, .word hx⟩
  | enclosed =>
    cases hops : table.operators with
    | nil => exact Or.inl ⟨rfl, rfl⟩
    | cons op ops =>
      have hop : op ∈ table.operators := hops ▸ List.mem_cons_self
      exact Or.inr ⟨[.symbol op.symbol, .symbol ")"], _, .enclosed hop⟩
  | enclosing hop => exact Or.inr ⟨[.symbol ")"], _, .enclosed hop⟩
  | termName _ ih =>
    -- In a term, a parenthesis may open a group instead.
    rcases ih with ⟨-, rfl⟩ | ⟨us, x, hname⟩
    · exact ⟨[.word "x", .symbol ")"], _, .group (derives_word hx)⟩
    · exact ⟨us, _, .name hname⟩
  | group _ ih =>
    obtain ⟨us, e, he⟩ := ih
    exact ⟨us ++ [.symbol ")"], e, by simpa using Derives.group he⟩
  | grouped he => exact ⟨[.symbol ")"], _, .group he⟩
  | argument _ _ ih =>
    obtain ⟨us, e, he⟩ := ih
    exact ⟨us, [e], by simpa using Derives.argument he .noArgument⟩
  | nextArgument he _ ih =>
    obtain ⟨us, es, hes⟩ := ih
    exact ⟨us, _, by simpa using Derives.argument he hes⟩
  | function _ ih =>
    obtain ⟨us, e, he⟩ := ih
    exact ⟨us, e, .single he⟩
  | call he _ ih =>
    obtain ⟨us, es, hes⟩ := ih
    exact ⟨us, _, derives_call_iff.mpr ⟨_, es, _, _, rfl, List.append_assoc .., he, hes⟩⟩
  | operand _ ih =>
    obtain ⟨us, e, he⟩ := ih
    exact ⟨us, e, by simpa using Derives.level he .noTail⟩
  | level he _ ih =>
    obtain ⟨us, htails⟩ := ih
    obtain ⟨e', he'⟩ := htails _
    exact ⟨us, e', by simpa using Derives.level he he'⟩
  | leftTail hop _ ih =>
    obtain ⟨us, e, he⟩ := ih
    exact ⟨us, fun left => ⟨_, by simpa using Derives.leftTail hop he .noTail⟩⟩
  | rightTail hop _ ih =>
    obtain ⟨us, e, he⟩ := ih
    exact ⟨us, fun left => ⟨_, .rightTail hop he⟩⟩
  | nonAssocTail hop _ ih =>
    obtain ⟨us, e, he⟩ := ih
    exact ⟨us, fun left => ⟨_, .nonAssocTail hop he⟩⟩
  | nextTail hop he _ ih =>
    obtain ⟨us, htails⟩ := ih
    refine ⟨us, fun left => ?_⟩
    obtain ⟨e', he'⟩ := htails _
    exact ⟨e', by simpa using Derives.leftTail hop he he'⟩
  | operation _ ih =>
    obtain ⟨us, e, he⟩ := ih
    exact ⟨us, e, derives_of_operation he⟩
  | lambda => exact ⟨[.word "x", .symbol "->", .word "x"], _, .lambda hx (derives_word hx)⟩
  | parameter hw => exact ⟨[.symbol "->", .word "x"], _, .lambda hw (derives_word hx)⟩
  | body hw _ ih =>
    obtain ⟨us, e, he⟩ := ih
    exact ⟨us, _, .lambda hw he⟩
  | binding =>
    exact Or.inr ⟨[.word "let", .word "x", .symbol "=", .word "x"], _,
      .binding (.word hx) (derives_word hx)⟩
  | bound _ ih =>
    rcases ih with ⟨hempty, rfl⟩ | ⟨us, x, hname⟩
    · exact Or.inl ⟨hempty, [], rfl, extends_bound [.word "x"] (.word hx)⟩
    · exact Or.inr (extends_bound us hname)
  | equals hname => exact Or.inr (extends_bound [] (by simpa using hname))
  | value hname _ ih =>
    obtain ⟨us, e, he⟩ := ih
    exact Or.inr ⟨us, _, by simpa using Derives.binding hname he⟩
  | further _ ih =>
    rcases ih with hstuck | hext
    · exact Or.inl (hstuck.append [.newline] fun _ => extends_further)
    · exact Or.inr (extends_further hext)
  | @nextFurther b ts us hb _ ih =>
    rcases ih with hstuck | hext
    · exact Or.inl (hstuck.append (.newline :: ts) fun _ => extends_nextFurther hb)
    · exact Or.inr (extends_nextFurther hb hext)
  | first _ _ ih =>
    rcases ih with hstuck | hext
    · exact Or.inl (hstuck.append [] fun _ => extends_first)
    · exact Or.inr (extends_first hext)
  | @program b ts us hb _ ih =>
    rcases ih with hstuck | hext
    · exact Or.inl (hstuck.append ts fun _ => extends_program hb)
    · exact Or.inr (extends_program hb hext)

/-! ## A parenthesis behind `let` -/

/-- Outside of bindings there is no `let`. -/
theorem Derives.let_notMem {phrase : Phrase} (h : Derives table phrase ts) :
    match phrase with
    | .binding _ | .further _ | .program _ => True
    | _ => .word "let" ∉ ts := by
  induction h with
  | word hw => simpa using fun h => hw h.symm
  | lambda hw h ih => simpa using ⟨fun h => hw h.symm, ih⟩
  | name h ih => exact ih
  | operation _ h ih => exact ih
  | _ => simp_all

/-- Two tokens in a row that are no parenthesis behind `let`. -/
def NoOpenName (a b : Token) : Prop := a = .word "let" → b ≠ .symbol "("

theorem noOpenName_chain (h : .word "let" ∉ ts) : ts.IsChain NoOpenName := by
  induction ts with
  | nil => exact .nil
  | cons t ts ih =>
    rw [List.mem_cons, not_or] at h
    refine (ih h.2).cons fun t' _ ht => absurd ht.symm h.1

/-- Bindings on further lines start with a line break. -/
theorem Derives.head_further {bs : List Binding} (h : Derives table (.further bs) ts) :
    ∀ t ∈ ts.head?, t = .newline := by
  cases h <;> simp

/-- Without operators, no parenthesis follows a `let`. -/
theorem Derives.noOpenName {phrase : Phrase} (h : Derives table phrase ts)
    (hempty : table.operators = []) :
    match phrase with
    | .binding _ | .further _ | .program _ => ts.IsChain NoOpenName
    | _ => True := by
  -- What is appended starts with a line break, which is no parenthesis.
  have happend : ∀ {ts us : List Token} {bs}, ts.IsChain NoOpenName →
      Derives table (.further bs) us → us.IsChain NoOpenName → (ts ++ us).IsChain NoOpenName := by
    intro ts us bs hts hus hchain
    refine hts.append hchain fun t _ t' ht' _ => ?_
    rw [hus.head_further t' ht']
    exact Token.noConfusion
  induction h with
  | binding hx he =>
    cases hx with
    | word hw =>
      refine .cons_cons (fun _ => Token.noConfusion) (noOpenName_chain ?_)
      simpa using ⟨fun h => hw h.symm, he.let_notMem⟩
    | enclosed hop =>
      rw [hempty] at hop
      cases hop
  | noFurther => exact .nil
  | further h hs ih ih' => exact (happend ih hs ih').cons fun t _ ht => Token.noConfusion ht
  | empty => exact .nil
  | program h hs ih ih' => exact happend ih hs ih'
  | _ => trivial

end Grammar

/-! ## The kinds of errors -/

/-- The error is about input behind a complete text. -/
def ParseError.isTrailing : ParseError → Bool
  | trailing _ _ _ => true
  | unexpected _ _ _ => false
  | stalled => false

/-- The error is about a token that cannot stand where it does. -/
def ParseError.isUnexpected : ParseError → Bool
  | unexpected _ _ _ => true
  | trailing _ _ _ => false
  | stalled => false

namespace Verdict
variable {α : Type} {done : List Token → α → Prop} {begun : List Token → Prop}
  {ts : List Token} {e : ParseError}

/-- An error lies within the tokens, and its kind says what is before it. -/
theorem error (h : Verdict done begun ts (.error e)) :
    e.position ≤ ts.length ∧
      (e.isTrailing = true ∧ e.isUnexpected = false ∧ (∃ v, done (ts.take e.position) v) ∨
        e.isTrailing = false ∧ e.isUnexpected = true ∧ begun (ts.take e.position)) := by
  cases h with
  | @trailing us r v expected found hts hdone =>
    subst hts
    refine ⟨by simp [ParseError.position], Or.inl ⟨rfl, rfl, v, ?_⟩⟩
    rwa [ParseError.position, List.take_left']
    rfl
  | @unexpected us r expected found hts hbegun =>
    subst hts
    refine ⟨by simp [ParseError.position], Or.inr ⟨rfl, rfl, ?_⟩⟩
    rwa [ParseError.position, List.take_left']
    rfl

/-- Where no beginning is complete, the kind of an error says whether what is before it
is accepted. -/
theorem kind_iff {accepts : List Token → Prop} (h : Verdict done begun ts (.error e))
    (ha : ∀ us, accepts us ↔ ∃ v, done us v) (hb : ∀ us v, begun us → ¬ done us v) :
    (e.isTrailing = true ↔ accepts (ts.take e.position)) ∧
      (e.isUnexpected = true ↔ ¬ accepts (ts.take e.position)) := by
  rw [ha]
  obtain ⟨-, ⟨ht, hu, hdone⟩ | ⟨ht, hu, hbegun⟩⟩ := h.error
  · simp [ht, hu, hdone]
  · have hnone : ¬ ∃ v, done (ts.take e.position) v := fun ⟨v, hv⟩ => hb _ v hbegun hv
    simp [ht, hu, hnone]

end Verdict

namespace Language
variable (L : Language) {ts : List Token}

open Grammar (Derives Begins)

theorem exists_parse_iff (ts : List Token) :
    (∃ p, L.parse ts = .ok p) ↔ ∃ p, Derives L.table (.program p) ts :=
  ⟨fun ⟨p, hp⟩ => ⟨p, L.derives_of_parse hp⟩, fun ⟨p, hp⟩ => ⟨p, L.parse_of_derives hp⟩⟩

theorem exists_parseExpression_iff (ts : List Token) :
    (∃ e, L.parseExpression ts = .ok e) ↔ ∃ e, Derives L.table (.expression e) ts :=
  ⟨fun ⟨e, he⟩ => ⟨e, L.derives_of_parseExpression he⟩,
    fun ⟨e, he⟩ => ⟨e, L.parseExpression_of_derives he⟩⟩

/-- Tokens that are the start of a program are the start of accepted tokens. -/
theorem exists_parse_append (h : Grammar.Extends L.table .program ts) :
    ∃ us p, L.parse (ts ++ us) = .ok p := by
  obtain ⟨us, p, hp⟩ := h
  exact ⟨us, p, L.parse_of_derives hp⟩

/-- Without operators, tokens that end in a parenthesis behind `let` are no start of
accepted tokens. -/
theorem not_exists_parse_append (hempty : L.table.operators = []) (before : List Token) :
    ¬ ∃ us p, L.parse (before ++ [.word "let", .symbol "("] ++ us) = .ok p := by
  rintro ⟨us, p, hp⟩
  rw [List.append_assoc] at hp
  have hchain := (L.derives_of_parse hp).noOpenName hempty
  exact (List.isChain_append_cons_cons.mp hchain).2.1 rfl rfl

/-- **Where errors lie.**  The tokens before an error are the start of accepted tokens,
unless the language has no operators and they end in a parenthesis behind `let`; then
this is true of the tokens before the parenthesis. -/
theorem take_position_extends_iff (ts : List Token) (e : ParseError) (h : L.parse ts = .error e) :
    e.position ≤ ts.length ∧
      ((∃ us p, L.parse (ts.take e.position ++ us) = .ok p) ↔
        ¬ (L.table.operators = [] ∧
          ∃ before, ts.take e.position = before ++ [.word "let", .symbol "("])) ∧
      ∀ before, L.table.operators = [] →
        ts.take e.position = before ++ [.word "let", .symbol "("] →
          ∃ us p, L.parse (before ++ .word "let" :: us) = .ok p := by
  have hv := L.verdict_parse ts
  rw [h] at hv
  obtain ⟨hle, hkind⟩ := hv.error
  generalize ts.take e.position = us at hkind
  refine ⟨hle, ?_⟩
  -- What is before the error is complete, or can be completed, or is stuck.
  have hcases : Grammar.Stuck L.table .program us ∨ Grammar.Extends L.table .program us := by
    rcases hkind with ⟨-, -, p, hp⟩ | ⟨-, -, hbegun⟩
    · exact Or.inr ⟨[], p, by rwa [List.append_nil]⟩
    · exact hbegun.completes
  rcases hcases with ⟨hempty, before, rfl, hext⟩ | hext
  · refine ⟨⟨fun hex _ => L.not_exists_parse_append hempty before hex,
      fun hnot => absurd ⟨hempty, before, rfl⟩ hnot⟩, fun before' _ heq => ?_⟩
    obtain ⟨rfl, -⟩ := List.append_inj' heq rfl
    simpa using L.exists_parse_append hext
  · have hex := L.exists_parse_append hext
    refine ⟨⟨fun _ => ?_, fun _ => hex⟩, ?_⟩
    · rintro ⟨hempty, before, rfl⟩
      exact L.not_exists_parse_append hempty before hex
    · rintro before hempty rfl
      exact absurd hex (L.not_exists_parse_append hempty before)

/-- The language without operators. -/
def withoutOperators : Language := ⟨⟨[]⟩, rfl⟩

/-- An error that does not lie behind the start of accepted tokens. -/
theorem parse_open_name_withoutOperators :
    withoutOperators.parse [.word "let", .symbol "("] =
        .error (.unexpected 2 ["operator"] "end of input") ∧
      ¬ ∃ us p, withoutOperators.parse ([.word "let", .symbol "("].take 2 ++ us) = .ok p :=
  ⟨rfl, withoutOperators.not_exists_parse_append rfl []⟩

/-- An error behind a binding without its value, and the tokens before it. -/
theorem take_position_extends_iff_standard :
    ∃ us p, standard.parse ([.word "let", .word "x", .symbol ")"].take 2 ++ us) = .ok p := by
  have h := take_position_extends_iff standard [.word "let", .word "x", .symbol ")"]
    (.unexpected 2 ["'='"] "')'") rfl
  exact h.2.1.mpr fun hempty => absurd hempty.1 (by decide)

/-- **What errors are.**  Trailing input is reported exactly behind accepted tokens, and
otherwise the error is about a token that cannot stand where it does. -/
theorem isTrailing_iff_accepted (ts : List Token) (e : ParseError) :
    (L.parse ts = .error e →
      (e.isTrailing = true ↔ ∃ p, L.parse (ts.take e.position) = .ok p) ∧
        (e.isUnexpected = true ↔ ¬ ∃ p, L.parse (ts.take e.position) = .ok p)) ∧
      (L.parseExpression ts = .error e →
        (e.isTrailing = true ↔ ∃ x, L.parseExpression (ts.take e.position) = .ok x) ∧
          (e.isUnexpected = true ↔ ¬ ∃ x, L.parseExpression (ts.take e.position) = .ok x)) := by
  constructor
  · intro h
    have hv := L.verdict_parse ts
    rw [h] at hv
    exact hv.kind_iff L.exists_parse_iff fun us p hb => hb.not_derives_program L.valid
  · intro h
    have hv := L.verdict_parseExpression ts
    rw [h] at hv
    exact hv.kind_iff L.exists_parseExpression_iff
      fun us x hb => hb.not_derives_expression L.valid

/-- Trailing input behind a program, and a parameter without its arrow. -/
theorem isTrailing_iff_accepted_standard :
    (∃ p, standard.parse ([.symbol ")"].take 0) = .ok p) ∧
      ¬ ∃ x, standard.parseExpression ([.symbol "\\", .word "x"].take 2) = .ok x := by
  have htrailing := isTrailing_iff_accepted standard [.symbol ")"]
    (.trailing 0 ["'let'", "statement"] "')'")
  have hunexpected := isTrailing_iff_accepted standard [.symbol "\\", .word "x"]
    (.unexpected 2 ["'->'"] "end of input")
  exact ⟨(htrailing.1 rfl).1.mp rfl, (hunexpected.2 rfl).2.mp rfl⟩

end Language

end Fixity
