import Fixity.Proofs.GrammarRelations
import Fixity.Proofs.Termination

/-! # Words and literals are opaque

The grammar looks at the text of a symbol, and at whether a word is the keyword.  Of all
other words and of literals it sees the kind of the token only.  So a text that spells them
differently (`Respelling`) is parsed in the same steps: to the same program, spelled
differently, or to the same error, but for the description of the token at fault.

The two runs are kept side by side by a relation (`Respelling.runs`) under which failures
and records are the same once their descriptions are left out (`Failure.anonymous`).
-/
namespace Fixity

/-- **Other spellings** of words and literals.  The keyword keeps its own, and no other word
gets it; apart from that, different texts may be spelled alike. -/
structure Respelling where
  word : String → String
  integer : String → String
  string : String → String
  word_let : word "let" = "let"
  word_ne_let {text : String} : text ≠ "let" → word text ≠ "let"

namespace Respelling
variable (ρ : Respelling)

/-! ## Tokens and programs -/

/-- A token in the other spelling. -/
def token : Token → Token
  | .word text => .word (ρ.word text)
  | .symbol text => .symbol text
  | .integer digits => .integer (ρ.integer digits)
  | .string text => .string (ρ.string text)
  | .newline => .newline

/-- A name in the other spelling; operators have no other. -/
def name : Name → Name
  | .word text => .word (ρ.word text)
  | .operator symbol => .operator symbol

/-- A literal in the other spelling. -/
def literal : Literal → Literal
  | .integer digits => .integer (ρ.integer digits)
  | .string text => .string (ρ.string text)

mutual

/-- An expression with its names, parameters and literals in the other spelling. -/
def expr : Expr → Expr
  | .name x => .name (ρ.name x)
  | .literal value => .literal (ρ.literal value)
  | .call function arguments => .call (expr function) (exprs arguments)
  | .lambda parameter body => .lambda (ρ.name parameter) (expr body)

/-- Expressions in the other spelling. -/
def exprs : List Expr → List Expr
  | [] => []
  | e :: rest => expr e :: exprs rest

end

/-- A binding in the other spelling. -/
def binding (b : Binding) : Binding := ⟨ρ.name b.name, ρ.expr b.value⟩

/-- A program in the other spelling. -/
def program (p : Program) : Program := ⟨p.bindings.map ρ.binding⟩

theorem exprs_eq_map (es : List Expr) : ρ.exprs es = es.map ρ.expr := by
  induction es with
  | nil => rfl
  | cons e es ih => rw [exprs, ih, List.map_cons]

theorem expr_ofTerms (first : Expr) (rest : List Expr) :
    ρ.expr (.ofTerms first rest) = .ofTerms (ρ.expr first) (rest.map ρ.expr) := by
  unfold Expr.ofTerms
  rw [List.isEmpty_map]
  split
  · rfl
  · rw [expr, exprs_eq_map]

theorem expr_operation (symbol : String) (left right : Expr) :
    ρ.expr (.operation symbol left right) = .operation symbol (ρ.expr left) (ρ.expr right) := rfl

/-! ## What the grammar sees of a token -/

theorem word?_token (t : Token) : (ρ.token t).word? = t.word?.map ρ.word := by
  cases t <;> rfl

theorem symbol?_token (t : Token) : (ρ.token t).symbol? = t.symbol? := by
  cases t <;> rfl

theorem ofToken?_token (t : Token) :
    Literal.ofToken? (ρ.token t) = (Literal.ofToken? t).map ρ.literal := by
  cases t <;> rfl

theorem token_eq_newline_iff (t : Token) : ρ.token t = .newline ↔ t = .newline := by
  cases t <;> simp [token]

theorem word_eq_let_iff (text : String) : ρ.word text = "let" ↔ text = "let" := by
  constructor
  · intro h
    by_contra hne
    exact ρ.word_ne_let hne h
  · rintro rfl
    exact ρ.word_let

theorem token_eq_let_iff (t : Token) : ρ.token t = .word "let" ↔ t = .word "let" := by
  cases t <;> simp [token, word_eq_let_iff]

theorem isKeyword_word (text : String) :
    Grammar.isKeyword (ρ.word text) = Grammar.isKeyword text := by
  rw [Bool.eq_iff_iff]
  simp only [Grammar.isKeyword, Grammar.keywords, Grammar.letWord, List.contains_cons,
    List.contains_nil, Bool.or_false, beq_iff_eq, word_eq_let_iff]

end Respelling

/-! ## Failures without descriptions -/

/-- The failure without the description of what was found. -/
def Failure.anonymous (f : Failure) : Failure := { f with found := none }

theorem Failure.anonymous_merge (f g : Failure) :
    (f.merge g).anonymous = f.anonymous.merge g.anonymous := by
  unfold merge
  show _ = if g.position < f.position then f.anonymous else
    if f.position < g.position then g.anonymous else _
  split
  · rfl
  · split <;> rfl

theorem Failure.agrees_of_anonymous {f g : Failure} (h : f.anonymous = g.anonymous) :
    f.Agrees Eq g where
  position := show f.anonymous.position = g.anonymous.position by rw [h]
  expected := show f.anonymous.expected = g.anonymous.expected by rw [h]

theorem Failure.isFatal_of_anonymous {f g : Failure} (h : f.anonymous = g.anonymous) :
    f.isFatal = g.isFatal :=
  show f.anonymous.isFatal = g.anonymous.isFatal by rw [h]

theorem Failure.kind_of_anonymous {f g : Failure} (h : f.anonymous = g.anonymous) :
    f.kind = g.kind :=
  show f.anonymous.kind = g.anonymous.kind by rw [h]

theorem Cursor.anonymous_unmet (c : Cursor) (expected : String) :
    (c.unmet expected).anonymous = (Failure.blank c.position).expecting expected := by
  unfold Cursor.unmet
  split <;> rfl

namespace Respelling
variable (ρ : Respelling) {c d : Cursor} {f g : Failure}

/-! ## The relation -/

/-- **Cursors over two spellings**, whose records are the same without descriptions. -/
structure Beside (c d : Cursor) : Prop where
  tokens : d.tokens = c.tokens.map ρ.token
  record : c.furthest.map Failure.anonymous = d.furthest.map Failure.anonymous

variable {ρ}

theorem Beside.remember (h : ρ.Beside c d) (hf : f.anonymous = g.anonymous) :
    ρ.Beside (c.remember f) (d.remember g) := by
  refine ⟨h.tokens, congrArg some ?_⟩
  have hrec := h.record
  cases hc : c.furthest with
  | none =>
    rw [hc, Option.map_none, eq_comm, Option.map_eq_none_iff] at hrec
    simpa only [hrec] using hf
  | some r =>
    rw [hc, Option.map_some, eq_comm, Option.map_eq_some_iff] at hrec
    obtain ⟨s, hd, hs⟩ := hrec
    simp only [hd, Failure.anonymous_merge, hs, hf]

theorem Beside.rel (h : ρ.Beside c d) :
    Option.Rel (Failure.Agrees Eq) c.furthest d.furthest := by
  have hrec := h.record
  cases hc : c.furthest with
  | none =>
    rw [hc, Option.map_none, eq_comm, Option.map_eq_none_iff] at hrec
    rw [hrec]
    exact .none
  | some r =>
    rw [hc, Option.map_some, eq_comm, Option.map_eq_some_iff] at hrec
    obtain ⟨s, hd, hs⟩ := hrec
    rw [hd]
    exact .some (Failure.agrees_of_anonymous hs.symm)

theorem Beside.anonymous_unmet (hpos : c.position = d.position) (expected : String) :
    (c.unmet expected).anonymous = (d.unmet expected).anonymous := by
  rw [c.anonymous_unmet, d.anonymous_unmet, hpos]

theorem Beside.hasNext_eq (h : ρ.Beside c d) (hpos : c.position = d.position) :
    c.hasNext = d.hasNext := by
  rw [Cursor.hasNext, Cursor.hasNext, h.tokens, List.length_map, hpos]

theorem Beside.peek?_eq (h : ρ.Beside c d) (hpos : c.position = d.position) :
    d.peek? = c.peek?.map ρ.token := by
  rw [Cursor.peek?, Cursor.peek?, h.tokens, List.getElem?_map, hpos]

variable (ρ)

/-- **Runs over two spellings of a text.** -/
def runs : RunRelation where
  near c d := ρ.Beside c d ∧ c.position = d.position
  fails f c g d := ρ.Beside c d ∧ f.anonymous = g.anonymous
  length h := by rw [h.1.tokens, List.length_map]
  position h := h.2
  isFatal h := Failure.isFatal_of_anonymous h.2
  failPosition h := (Failure.agrees_of_anonymous h.2).position
  advance := by
    rintro c d ⟨h, hpos⟩ hnext
    rw [Cursor.advance, Cursor.advance, if_pos hnext, if_pos (h.hasNext_eq hpos ▸ hnext)]
    exact ⟨⟨h.tokens, h.record⟩, congrArg (· + 1) hpos⟩
  reject := by
    rintro c d expected ⟨h, hpos⟩
    have hunmet := Beside.anonymous_unmet hpos expected
    exact ⟨h.remember hunmet, hunmet⟩
  giveUp _ h := ⟨⟨h.1.tokens, h.1.record⟩, rfl⟩
  moved _ _ h := ⟨⟨h.1.tokens, h.1.record⟩, h.2⟩
  merge {f g f' g' _ _ _ _} h h' _ _ := by
    refine ⟨h'.1, ?_⟩
    rw [f.anonymous_merge, g.anonymous_merge, h.2, h'.2]
  named {f g _ _} name h _ := by
    have hnamed : ({ f with expected := [name] } : Failure).anonymous =
        ({ g with expected := [name] } : Failure).anonymous :=
      congrArg (fun f : Failure => { f with expected := [name] }) h.2
    exact ⟨h.1.remember hnamed, hnamed⟩
  toFatal h := ⟨⟨h.1.tokens, h.1.record⟩, congrArg Failure.toFatal h.2⟩

/-- Symbols have no other spelling. -/
instance : ρ.runs.SameSymbols where
  symbol := by
    rintro c d ⟨h, hpos⟩
    rw [h.peek?_eq hpos]
    cases c.peek? with
    | none => rfl
    | some t => exact (ρ.symbol?_token t).symm

/-- **What such runs report** differs in the description of the token at most. -/
theorem runs_reports : ρ.runs.Reports Eq where
  fails h := Cursor.matches_errorFor h.1.rel (Failure.agrees_of_anonymous h.2)
    (Failure.isFatal_of_anonymous h.2) (Failure.kind_of_anonymous h.2)
  trailing := by
    rintro c d ⟨h, hpos⟩
    have hunmet := congrArg Failure.asTrailing (Beside.anonymous_unmet hpos "end of input")
    exact Cursor.matches_errorFor h.rel (Failure.agrees_of_anonymous hunmet)
      (Failure.isFatal_of_anonymous hunmet) (Failure.kind_of_anonymous hunmet)

/-- A token whose value is respelled with it. -/
theorem rel_decode {α : Type} {decode : Token → Option α} (respell : α → α)
    (h : ∀ t, decode (ρ.token t) = (decode t).map respell) (c d : Cursor)
    (hnear : ρ.runs.near c d) :
    Option.Rel (respell · = ·) (c.peek?.bind decode) (d.peek?.bind decode) := by
  rw [hnear.1.peek?_eq hnear.2]
  cases c.peek? with
  | none => exact .none
  | some t =>
    rw [Option.map_some, Option.bind_some, Option.bind_some, h t]
    cases decode t with
    | none => exact .none
    | some v => exact .some rfl

/-- Trees that stand for one expression in two spellings. -/
def Renders (t t' : Tree Expr) : Prop := ρ.expr t.toExpr = t'.toExpr

theorem renders_keptByNodes : Tree.KeptByNodes ρ.Renders := by
  intro op op' left left' right right' hop hleft hright
  show ρ.expr (Expr.operation _ _ _) = Expr.operation _ _ _
  rw [expr_operation, hop, show ρ.expr left.toExpr = _ from hleft,
    show ρ.expr right.toExpr = _ from hright]

end Respelling

/-! ## The grammar -/

namespace Grammar
variable (ρ : Respelling) {Γ Δ : List Type} {table : OperatorTable} {spare : Nat}
  {env : Env Γ} {env' : Env Δ}

theorem respelled_word : ρ.runs.Similar (ρ.word · = ·) ((word : Rule Γ String).eval spare env)
    ((word : Rule Δ String).eval spare env') := by
  refine .filter_token_of (ρ.rel_decode ρ.word ρ.word?_token) _ ?_ _
  rintro text _ rfl
  rw [ρ.isKeyword_word]

theorem respelled_name : ρ.runs.Similar (ρ.name · = ·) ((name table : Rule Γ Name).eval spare env)
    ((name table : Rule Δ Name).eval spare env') := by
  refine .label _ (.or (.map (respelled_word ρ) ?_) (.map (V := Eq) ?_ ?_))
  · rintro text _ rfl
    rfl
  · refine similar_keepLeft (similar_keepRight (similar_symbol "(") ?_) (similar_symbol ")")
    refine .filter_token_of (rel_symbol some fun t => ?_) _ ?_ _
    · exact (Option.bind_fun_some _).symm
    · rintro symbol _ rfl
      rfl
  · rintro symbol _ rfl
    rfl

/-- Terms, where the expressions in parentheses are related. -/
theorem respelled_term {expression : Rule Γ Expr} {expression' : Rule Δ Expr}
    (h : ρ.runs.Similar (ρ.expr · = ·) (expression.eval spare env) (expression'.eval spare env')) :
    ρ.runs.Similar (ρ.expr · = ·) ((term table expression).eval spare env)
      ((term table expression').eval spare env') := by
  show ρ.runs.Similar _ (Parser.label _ ((Rule.oneOf _).eval spare env))
    (Parser.label _ ((Rule.oneOf _).eval spare env'))
  rw [Rule.eval_oneOf, Rule.eval_oneOf]
  refine .label _ (.firstOf (.cons ?_ (.cons ?_ (.cons ?_ .nil))) (List.cons_ne_nil _ _))
  · refine (respelled_name ρ).map ?_
    rintro x _ rfl
    rfl
  · refine RunRelation.Similar.map (V := (ρ.literal · = ·))
      (.token_of (ρ.rel_decode ρ.literal ρ.ofToken?_token) _) ?_
    rintro value _ rfl
    rfl
  · exact similar_keepLeft (similar_keepRight (similar_symbol "(") h) (similar_symbol ")")

theorem respelled_call {term : Rule Γ Expr} {term' : Rule Δ Expr}
    (h : ρ.runs.Similar (ρ.expr · = ·) (term.eval spare env) (term'.eval spare env')) :
    ρ.runs.Similar (ρ.expr · = ·) ((call term).eval spare env) ((call term').eval spare env') := by
  refine (h.many1 spare).map ?_
  rintro ⟨e, es⟩ ⟨e', es'⟩ ⟨he, hes⟩
  cases he
  obtain rfl : es.map ρ.expr = es' := by
    rwa [← List.forall₂_eq_eq_eq, List.forall₂_map_left_iff]
  exact ρ.expr_ofTerms e es

theorem respelled_operation {operand : Rule Γ Expr} {operand' : Rule Δ Expr}
    (h : ρ.runs.Similar (ρ.expr · = ·) (operand.eval spare env) (operand'.eval spare env')) :
    ρ.runs.Similar (ρ.expr · = ·) ((operation table operand).eval spare env)
      ((operation table operand').eval spare env') := by
  refine RunRelation.Similar.map (V := ρ.Renders) (.fix (fun whole whole' hwhole => ?_) spare)
    fun _ _ ht => ht
  refine similar_levels ρ.renders_keptByNodes table (.orGroup ?_ (similar_group hwhole))
  show ρ.runs.Similar _ (Parser.map _ (operand.weaken.eval spare _))
    (Parser.map _ (operand'.weaken.eval spare _))
  rw [Rule.eval_weaken, Rule.eval_weaken]
  exact h.map fun _ _ he => he

theorem respelled_lambda {expression : Rule Γ Expr} {expression' : Rule Δ Expr}
    (h : ρ.runs.Similar (ρ.expr · = ·) (expression.eval spare env) (expression'.eval spare env')) :
    ρ.runs.Similar (ρ.expr · = ·) ((lambda expression).eval spare env)
      ((lambda expression').eval spare env') := by
  have hbody := similar_keepRight (V := Eq) (similar_symbol "->") h
  refine similar_keepRight (similar_symbol "\\") (.commit ?_)
  refine RunRelation.Similar.map ((respelled_word ρ).seq hbody
    (X := fun v v' => ρ.word v.1 = v'.1 ∧ ρ.expr v.2 = v'.2) fun _ _ _ _ hx he => ⟨hx, he⟩) ?_
  rintro ⟨x, e⟩ ⟨_, _⟩ ⟨rfl, rfl⟩
  rfl

/-- **Expressions.** -/
theorem respelled_expression :
    ρ.runs.Similar (ρ.expr · = ·) ((expression table : Rule Γ Expr).eval spare env)
      ((expression table : Rule Δ Expr).eval spare env') := by
  refine .fix (fun self self' hself => .or (respelled_lambda ρ ?_) (respelled_operation ρ ?_)) spare
  · exact hself
  · exact respelled_call ρ (respelled_term ρ hself)

theorem respelled_statement {expression : Rule Γ Expr} {expression' : Rule Δ Expr}
    (h : ρ.runs.Similar (ρ.expr · = ·) (expression.eval spare env) (expression'.eval spare env')) :
    ρ.runs.Similar (ρ.binding · = ·) ((statement table expression).eval spare env)
      ((statement table expression').eval spare env') := by
  have hname : ρ.runs.Similar (ρ.name · = ·)
      (((name table).keepLeft (.symbol "=")).eval spare env)
      (((name table).keepLeft (.symbol "=")).eval spare env') :=
    similar_keepLeft (respelled_name ρ) (similar_symbol "=")
  refine .label _ (similar_keepRight (V := fun _ _ => True) ?_ (.commit ?_))
  · refine RunRelation.Similar.mono (.token_of (ρ.rel_decode id fun t => ?_) _)
      fun _ _ _ => trivial
    have hlet : ρ.token t = .word letWord ↔ t = .word letWord := ρ.token_eq_let_iff t
    simp only [hlet, Option.map_id_fun, id_eq]
  · refine RunRelation.Similar.map (hname.seq h
      (X := fun v v' => ρ.name v.1 = v'.1 ∧ ρ.expr v.2 = v'.2) fun _ _ _ _ hx he => ⟨hx, he⟩) ?_
    rintro ⟨x, e⟩ ⟨_, _⟩ ⟨rfl, rfl⟩
    rfl

theorem respelled_statements {expression : Rule Γ Expr} {expression' : Rule Δ Expr}
    (h : ρ.runs.Similar (ρ.expr · = ·) (expression.eval spare env) (expression'.eval spare env')) :
    ρ.runs.Similar (List.map ρ.binding · = ·)
      ((Rule.sepBy (statement table expression) .newline).eval spare env)
      ((Rule.sepBy (statement table expression') .newline).eval spare env') := by
  have hnewline : ρ.runs.Similar (id · = ·) ((.newline : Rule Γ Unit).eval spare env)
      ((.newline : Rule Δ Unit).eval spare env') := by
    refine .token_of (ρ.rel_decode id fun t => ?_) _
    simp only [ρ.token_eq_newline_iff, Option.map_id_fun, id_eq]
  refine ((respelled_statement ρ h).sepBy hnewline spare).mono fun bs bs' hbs => ?_
  rwa [← List.forall₂_eq_eq_eq, List.forall₂_map_left_iff]

end Grammar

/-! ## Parsing -/

/-- The error with the description of what stands at its position in other tokens. -/
def ParseError.over (tokens : List Token) : ParseError → ParseError
  | unexpected position expected _ =>
    unexpected position expected ((tokens[position]?.map Token.description).getD "end of input")
  | trailing position expected _ =>
    trailing position expected ((tokens[position]?.map Token.description).getD "end of input")
  | stalled => stalled

/-- An error at one position with the same expectations, which describes the token there. -/
theorem ParseError.Matches.eq_over {e e' : ParseError} {ts : List Token}
    (h : e.Matches Eq Unrelated e') (he' : e'.Coherent ts) : e' = e.over ts := by
  have hfound := he'.found_eq
  cases h with
  | unexpected hE _ =>
    cases hE
    exact congrArg (ParseError.unexpected _ _) hfound
  | trailing hE _ =>
    cases hE
    exact congrArg (ParseError.trailing _ _) hfound

theorem Parser.toEnd_map {α β : Type} (f : α → β) (p : Parser α) (c : Cursor) :
    Parser.toEnd (Parser.map f p) c = (Parser.toEnd p c).map f := by
  unfold Parser.toEnd Parser.map
  cases p c with
  | ok v c' =>
    simp only [Outcome.map_ok, Outcome.bind_ok]
    split <;> rfl
  | fail g c' => rfl
  | stalled => rfl

/-- A text to its end, by a rule whose values are respelled with it. -/
theorem Respelling.parse_toEnd (ρ : Respelling) {α : Type} {rule : Rule [] α} {respell : α → α}
    (h : ρ.runs.Similar (respell · = ·) (rule.eval 0 .nil) (rule.eval 0 .nil))
    (hends : rule.Productive) (ts : List Token) :
    rule.toEnd.parse (ts.map ρ.token) =
      match rule.toEnd.parse ts with
      | .ok value => .ok (respell value)
      | .error error => .error (error.over (ts.map ρ.token)) := by
  have hstart : ρ.runs.near (.start ts) (.start (ts.map ρ.token)) := ⟨⟨rfl, rfl⟩, rfl⟩
  have hruns : ρ.runs.Paired Eq (Parser.map respell (rule.eval 0 .nil) (.start ts))
      (rule.eval 0 .nil (.start (ts.map ρ.token))) := by
    rw [← Outcome.map_id (rule.eval 0 .nil (.start (ts.map ρ.token)))]
    exact (h _ _ hstart).map fun _ _ hv => hv
  have hsame := ρ.runs_reports.toEnd hruns (Outcome.map_ne_stalled _ (hends.run_ne_stalled _))
  rw [Parser.toEnd_map, Outcome.result_map] at hsame
  change SameResult Eq Unrelated ((rule.toEnd.parse ts).map respell)
    (rule.toEnd.parse (ts.map ρ.token)) at hsame
  generalize rule.toEnd.parse ts = r at hsame ⊢
  generalize hr' : rule.toEnd.parse (ts.map ρ.token) = r' at hsame ⊢
  cases r with
  | ok v =>
    cases hsame
    rfl
  | error e =>
    cases hsame with
    | error hmatches =>
      have hne := hmatches.ne_stalled.2
      exact congrArg Except.error (hmatches.eq_over (Rule.coherent_of_parse hr' hne))

namespace Language

/-- **Words and literals are opaque to the parser.**  In another spelling of its words other
than the keyword, of its integers and of its strings, a text is parsed to the same program
in that spelling, or to an error of the same kind at the same position with the same
expectations, which describes the token that stands there then. -/
theorem parse_respelled (L : Language) (ρ : Respelling) (ts : List Token) :
    L.parse (ts.map ρ.token) =
      match L.parse ts with
      | .ok program => .ok (ρ.program program)
      | .error error => .error (error.over (ts.map ρ.token)) := by
  let bindings : Rule [] (List Binding) :=
    .sepBy (Grammar.statement L.table (Grammar.expression L.table)) .newline
  have hparse : ∀ ts, L.parse ts = (bindings.toEnd.parse ts).map Program.mk :=
    Rule.parse_map Program.mk bindings.toEnd
  have hbindings := ρ.parse_toEnd
    (Grammar.respelled_statements ρ (Grammar.respelled_expression ρ)) L.productive_program ts
  rw [hparse, hparse, hbindings]
  cases bindings.toEnd.parse ts with
  | ok bs => rfl
  | error e => rfl

/-- All names spelled alike, all integers and all strings. -/
def alike : Respelling where
  word text := if text = "let" then text else "x"
  integer _ := "0"
  string _ := ""
  word_let := if_pos rfl
  word_ne_let h := by
    rw [if_neg h]
    decide

/-- A program and an error, and what becomes of them where all names and literals are spelled
alike. -/
theorem parse_respelled_alike :
    let sum : List Token :=
      [.word "let", .word "f", .symbol "=", .word "a", .symbol "+", .integer "7"]
    let unbound : List Token := [.word "let", .word "a", .integer "7"]
    standard.parse sum = .ok ⟨[⟨.word "f", .call (.name (.operator "+"))
      [.name (.word "a"), .literal (.integer "7")]⟩]⟩ ∧
    standard.parse (sum.map alike.token) = .ok ⟨[⟨.word "x", .call (.name (.operator "+"))
      [.name (.word "x"), .literal (.integer "0")]⟩]⟩ ∧
    standard.parse unbound = .error (.unexpected 2 ["'='"] "integer '7'") ∧
    standard.parse (unbound.map alike.token) =
      .error (.unexpected 2 ["'='"] "integer '0'") := by
  intro sum unbound
  have hok : standard.parse sum = .ok ⟨[⟨.word "f", .call (.name (.operator "+"))
      [.name (.word "a"), .literal (.integer "7")]⟩]⟩ := by decide +kernel
  have herror : standard.parse unbound = .error (.unexpected 2 ["'='"] "integer '7'") := by
    decide +kernel
  have hprogram := parse_respelled standard alike sum
  have hreport := parse_respelled standard alike unbound
  rw [hok] at hprogram
  rw [herror] at hreport
  exact ⟨hok, hprogram, herror, hreport⟩

end Language

end Fixity
