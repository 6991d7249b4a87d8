import Fixity.Proofs.GrammarRelations
import Fixity.Proofs.Retreading
import Fixity.Proofs.Termination

/-! # Operations in parentheses

The tightest level of an operation reads a call or, if that fails at its first token, an
operation in parentheses.  A term in parentheses is an expression already, so what stands
in parentheses is read twice, if the guard lets it.  This module shows that the guard
changes no result: the second reading could be tried behind every failure, or never
(`Grouping`).

Take the grammar in which it is never tried.  Where a call fails, one of the alternatives
that have failed is an expression in parentheses.  An operation in parentheses goes the
same way, over tokens that have been looked at, unless the expression is a function, and
then it fails at the backslash: it retreads the expression
(`Grammar.retreads_plainGroup`).  So to try it is idle, in each of the other grammars, at
every depth.
-/
namespace Fixity

/-- **When an operation in parentheses is tried** as an operand. -/
inductive Grouping where
  /-- If a call fails at its first token. -/
  | guarded
  /-- If a call fails. -/
  | either
  /-- Not at all. -/
  | never

/-! ## The three grammars -/

namespace Grouping
variable {Γ : List Type} (way : Grouping) (table : OperatorTable)

/-- An operation in parentheses. -/
def group : Rule (Tree Expr :: Γ) (Tree Expr) :=
  .between (Delimiters.parentheses : Delimiters Γ).opening.weaken
    (Delimiters.parentheses : Delimiters Γ).closing.weaken (.ref .here)

/-- What the tightest level reads. -/
def operand (call : Rule Γ Expr) : Rule (Tree Expr :: Γ) (Tree Expr) :=
  match way with
  | guarded => Tree.operandRule (some .parentheses) call
  | either => .or (call.weaken.map .value) group
  | never => Tree.operandRule none call

/-- Operands and operators. -/
def operation (call : Rule Γ Expr) : Rule Γ Expr :=
  (Rule.fix (Tree.levelRules Token.symbol? table.levels (way.operand call))).map Tree.toExpr

/-- **An expression.** -/
def expression : Rule Γ Expr :=
  .fix (.or (Grammar.lambda (.ref .here))
    (way.operation table (Grammar.call (Grammar.term table (.ref .here)))))

/-- **A program**, to the end of the input. -/
def program : Rule Γ Program :=
  (Rule.sepBy (Grammar.statement table (way.expression table)) .newline).toEnd.map .mk

/-! ### Their runs end -/

variable {sure free : Marks Γ}

theorem grounded_operand {sure free : Marks (Tree Expr :: Γ)} (x : Var Γ Expr) :
    (way.operand (Grammar.call (Grammar.term table (.ref x)))).Grounded sure free := by
  have hcall : (((Grammar.call (Grammar.term table (.ref x))).weaken).map
      (.value : Expr → Tree Expr)).Grounded sure free := by
    rw [Grammar.weaken_call]
    exact Grammar.grounded_call table x.there
  have hgroup : (group : Rule (Tree Expr :: Γ) (Tree Expr)).Grounded sure free :=
    ⟨⟨trivial, .inr ((Grammar.advances_symbol "(").map _)⟩, trivial⟩
  cases way with
  | guarded => exact ⟨hcall, hgroup⟩
  | either => exact ⟨hcall, hgroup⟩
  | never => exact hcall

theorem grounded_expression : (way.expression table : Rule Γ Expr).Grounded sure free :=
  ⟨Grammar.grounded_lambda .here,
    Grammar.grounded_levelRules (fun _ => way.grounded_operand table .here) _ _⟩

end Grouping

/-! ## The grammar without groups -/

namespace Grammar
variable (table : OperatorTable)

/-- Expressions, where operations in parentheses are never tried. -/
def plain : Parser Expr := (Grouping.never.expression table : Rule [] Expr).eval 0 .nil

/-- Inside of such expressions, they are in scope. -/
def plainScope : Env [Expr] := .cons (plain table) .nil

def plainLambda : Parser Expr := (lambda (.ref .here)).eval 0 (plainScope table)

def plainCall : Parser Expr := (call (term table (.ref .here))).eval 0 (plainScope table)

def plainTree : Parser (Tree Expr) :=
  (Tree.rule Token.symbol? table none (call (term table (.ref .here)))).eval 0 (plainScope table)

/-- The operation in parentheses that is not tried. -/
def plainGroup : Parser (Tree Expr) :=
  (Grouping.group : Rule [Tree Expr] (Tree Expr)).eval 0 (.cons (plainTree table) .nil)

/-- The expression in parentheses that is. -/
def plainParentheses : Parser Expr :=
  (Rule.between (.symbol "(") (.symbol ")") (.ref .here)).eval 0 (plainScope table)

theorem plain_eq :
    plain table = Parser.or (plainLambda table) (Parser.map Tree.toExpr (plainTree table)) := by
  have hgrounded : (Grouping.never.expression table : Rule [] Expr).Productive :=
    Grouping.never.grounded_expression table
  funext c
  exact hgrounded.eval_fix (n := c.remaining) .nil 0 c (Nat.le_refl _)

/-! ### Traces -/

theorem traced_plainOperand {Γ : List Type} (x : Var Γ Expr) (behind : Prop) :
    (Grouping.never.operand (call (term table (.ref x)))).Traced Token.InLine
      (fun _ => True) behind := by
  have hcall : (call (term table (.ref x))).Traced Token.InLine (fun _ => True) behind :=
    traced_term fun _ => trivial
  exact Rule.traced_weaken.mpr hcall

/-- **What refers to such expressions leaves a trace**, as they do. -/
theorem tracks_plainScope {α : Type} {rule : Rule [Expr] α}
    (h : rule.Traced Token.InLine (fun _ => True) False) (all : List Token) :
    (rule.eval 0 (plainScope table)).Tracks all True := by
  have htraced : (Grouping.never.expression table : Rule [] Expr).Traced Token.InLine
      (fun _ => True) False :=
    ⟨traced_lambda trivial .here,
      traced_levelRules table.operators_ne_nil_of_mem_levels (traced_plainOperand table .here) _⟩
  refine (h.tracks fun β x => ?_).mono fun _ => trivial
  cases x with
  | here => exact (htraced.tracks nofun).mono (by simp)
  | there x => cases x

theorem tracks_plain (all : List Token) : (plain table).Tracks all True := by
  have h : (.ref .here : Rule [Expr] Expr).Traced Token.InLine (fun _ => True) False := trivial
  exact tracks_plainScope table h all

theorem tracks_plainLambda (all : List Token) : (plainLambda table).Tracks all True :=
  tracks_plainScope table (traced_lambda trivial .here) all

theorem tracks_plainCall (all : List Token) : (plainCall table).Tracks all True := by
  have h : (call (term table (.ref .here)) : Rule [Expr] Expr).Traced Token.InLine
      (fun _ => True) False := traced_term fun _ => trivial
  exact tracks_plainScope table h all

theorem tracks_plainTree (all : List Token) : (plainTree table).Tracks all True := by
  have h : (Tree.rule Token.symbol? table none (call (term table (.ref .here))) :
      Rule [Expr] (Tree Expr)).Traced Token.InLine (fun _ => True) False :=
    traced_levelRules table.operators_ne_nil_of_mem_levels (traced_plainOperand table .here) _
  exact tracks_plainScope table h all

/-! ### Similarity -/

section Similar
variable {R : RunRelation} [R.SameTokens] {Γ Δ : List Type} {spare : Nat} {env : Env Γ} {env' : Env Δ}

theorem similar_plainTree {operand : Rule Γ Expr} {operand' : Rule Δ Expr}
    (h : R.Similar Eq (operand.eval spare env) (operand'.eval spare env')) :
    R.Similar Tree.Same ((Tree.rule Token.symbol? table none operand).eval spare env)
      ((Tree.rule Token.symbol? table none operand').eval spare env') := by
  refine .fix (fun whole whole' _ => similar_levels Tree.same_keptByNodes table ?_) spare
  show R.Similar _ (Parser.map _ (operand.weaken.eval spare _))
    (Parser.map _ (operand'.weaken.eval spare _))
  rw [Rule.eval_weaken, Rule.eval_weaken]
  exact similar_value h

theorem similar_plain : R.Similar Eq (plain table) (plain table) := by
  unfold plain
  refine .fix (fun self self' hself => .or (similar_lambda ?_) ?_) 0
  · exact hself
  · refine RunRelation.Similar.map (V := Tree.Same) (similar_plainTree table ?_) fun _ _ ht => ht
    exact similar_call (similar_term (fun _ => rfl) hself)

end Similar

/-! ## Retreading expressions -/

theorem retreads_plainTree : (plainTree table).Retreads (plainTree table) := by
  refine .self (V := Tree.Same) (tracks_plainTree table) fun depth => similar_plainTree table ?_
  exact similar_call (similar_term (fun _ => rfl) (similar_plain table))

theorem balks_plainTree : (plainTree table).Balks IsBackslash := by
  unfold plainTree
  refine .fix (fun whole => balks_levelRules _ ?_) 0
  show (Parser.map _ (Rule.eval 0 (Rule.weaken _) _)).Balks _
  rw [Rule.eval_weaken]
  exact .map (.map (.many1 balks_term 0))

/-- Functions start with a backslash. -/
theorem isBackslash_of_lambda {c c' : Cursor} {e : Expr} (h : plainLambda table c = .ok e c') :
    IsBackslash c.peek? := by
  obtain ⟨⟨s, b⟩, c₁, hseq, -⟩ := Outcome.bind_eq_ok.mp h
  obtain ⟨s, c₂, hslash, -⟩ := Outcome.bind_eq_ok.mp hseq
  change Parser.token _ _ c = _ at hslash
  unfold Parser.token at hslash
  split at hslash
  · rename_i s' hs'
    obtain ⟨t, ht, hdecode⟩ := Option.bind_eq_some_iff.mp hs'
    rw [ht]
    exact of_ite_eq_some (P := fun t => IsBackslash (some t)) rfl t _ hdecode
  · cases hslash

/-- **An operation retreads an expression.**  Where the expression is a function, it fails
at once. -/
theorem retreads_plain : (plainTree table).Retreads (plain table) where
  fail := by
    intro c c' d f hc hf hd
    rw [plain_eq] at hc
    obtain ⟨g, c₁, hlambda, hg, hrest⟩ := Outcome.recover_eq_fail hc hf
    obtain ⟨g', c₂, htree, hg', hmerge⟩ := Outcome.recover_eq_fail hrest hf
    cases hmerge
    obtain ⟨htok, -⟩ := (tracks_plainLambda table c.tokens).of_fail hlambda
    have hrepeats : d.Repeats (c₁.restore c.position) c₂ :=
      ⟨hd.tokens.trans htok.symm, hd.position, hd.explored⟩
    refine ((retreads_plainTree table).fail (Outcome.map_eq_fail htree) hg' hrepeats).mono ?_
    have hpos := g.position_merge g'
    omega
  ok := by
    intro c c' d e hc hd
    obtain ⟨-, hpos, -⟩ := (tracks_plain table c.tokens).of_ok hc
    rw [plain_eq] at hc
    rcases Outcome.recover_eq_ok hc with hlambda | ⟨g, c₁, hlambda, hg, hrest⟩
    · refine .inr (.of_balks (balks_plainTree table) ?_ (hd.position ▸ hpos))
      rw [Cursor.peek?_congr hd.tokens hd.position]
      exact isBackslash_of_lambda table hlambda
    · obtain ⟨htok, -⟩ := (tracks_plainLambda table c.tokens).of_fail hlambda
      have hrepeats : d.Repeats (c₁.restore c.position) c' :=
        ⟨hd.tokens.trans htok.symm, hd.position, hd.explored⟩
      rcases Outcome.recover_eq_ok hrest with htree | ⟨g', c₂, -, -, hv⟩
      · obtain ⟨t, c₃, htree, hv⟩ := Outcome.bind_eq_ok.mp htree
        cases hv
        exact (retreads_plainTree table).ok htree hrepeats
      · cases hv

/-- **An operation in parentheses retreads an expression in parentheses.** -/
theorem retreads_plainGroup : (plainGroup table).Retreads (plainParentheses table) := by
  refine (retreads_plain table).between ?_ ?_ (tracks_plain table) (fun _ => .token _ _)
    fun _ => .token _ _
  · exact (Parser.Retreads.token _ _).map_left _
  · exact (Parser.Retreads.token _ _).map_left _

/-- Where a call fails, an expression in parentheses has failed. -/
theorem failedBefore_of_plainCall {c c' : Cursor} {f : Failure}
    (h : plainCall table c = .fail f c') (hf : f.isFatal = false) :
    (plainParentheses table).FailedBefore c f c' := by
  have hterm : (term table (.ref .here)).eval 0 (plainScope table) c = .fail f c' := by
    rcases Outcome.bind_eq_fail (Outcome.map_eq_fail h) with hterm | ⟨v, c₁, -, hmany⟩
    · exact hterm
    · -- Behind a term, the loop fails only fatally.
      rw [Parser.foldMany_eq_map_collect] at hmany
      rw [Parser.Reads.isFatal_of_collect (Outcome.map_eq_fail hmany)] at hf
      cases hf
  have htraced : ∀ rule ∈ [(name table).map Expr.name, literal.map Expr.literal,
      Rule.between (.symbol "(") (.symbol ")") (.ref (.here : Var [Expr] Expr))],
      rule.Traced Token.InLine (fun _ => True) False := by
    simp only [List.forall_mem_cons]
    exact ⟨traced_name, traced_literal, ⟨⟨traced_symbol "(", trivial⟩, traced_symbol ")"⟩, nofun⟩
  change Parser.label _ ((Rule.oneOf _).eval 0 (plainScope table)) c = _ at hterm
  rw [Rule.eval_oneOf] at hterm
  refine Parser.failedBefore_of_label (fun p hp => ?_) hterm hf _ ?_
  · obtain ⟨rule, hrule, rfl⟩ := List.mem_map.mp hp
    exact tracks_plainScope table (htraced rule hrule)
  · exact List.mem_cons_of_mem _ (List.mem_cons_of_mem _ List.mem_cons_self)

/-- **An operation in parentheses is idle behind a call** that has failed. -/
theorem idleBehind_plainGroup :
    (plainGroup table).IdleBehind (Parser.map Tree.value (plainCall table)) := by
  intro c f c' h hf
  have hcall : plainCall table c = .fail f c' := Outcome.map_eq_fail h
  obtain ⟨htok, -⟩ := (tracks_plainCall table c.tokens).of_fail hcall
  exact (retreads_plainGroup table).failsIdly (failedBefore_of_plainCall table hcall hf) htok

/-! ## The three grammars side by side -/

variable (way : Grouping)

theorem similar_groupOperand {self : Parser Expr} {whole : Parser (Tree Expr)}
    (hself : (beyond 0).Similar Eq self (plain table))
    (hwhole : (beyond 0).Similar Tree.Same whole (plainTree table)) :
    (beyond 0).Similar Tree.Same
      ((way.operand (call (term table (.ref .here)))).eval 0 (.cons whole (.cons self .nil)))
      (Parser.map Tree.value (plainCall table)) := by
  have hcall : (beyond 0).Similar Tree.Same
      (((call (term table (.ref .here))).weaken.map .value).eval 0
        (.cons whole (.cons self .nil))) (Parser.map Tree.value (plainCall table)) := by
    show (beyond 0).Similar _ (Parser.map _ (Rule.eval 0 (Rule.weaken _) _)) _
    rw [Rule.eval_weaken]
    exact similar_value (similar_call (similar_term (fun _ => rfl) hself))
  have hgroup : (beyond 0).Similar Tree.Same
      (Grouping.group.eval 0 (.cons whole (.cons self .nil))) (plainGroup table) :=
    similar_group hwhole
  have htracks : ∀ all, (Parser.map Tree.value (plainCall table)).Tracks all True :=
    fun all => (tracks_plainCall table all).map
  cases way with
  | guarded => exact hcall.orGroup_idle hgroup htracks (idleBehind_plainGroup table)
  | either => exact hcall.or_idle hgroup htracks (idleBehind_plainGroup table)
  | never => exact hcall

/-- **Expressions of each of the grammars**, beside those without groups. -/
theorem similar_grouping :
    (beyond 0).Similar Eq ((way.expression table : Rule [] Expr).eval 0 .nil) (plain table) := by
  refine .fix_left (fun self hself => ?_) 0
  rw [plain_eq]
  refine .or (similar_lambda ?_) (.map (V := Tree.Same) (.fix_left (fun whole hwhole => ?_) 0)
    fun _ _ ht => ht)
  · exact hself
  · unfold plainTree
    refine .fix_right (fun whole' => similar_levels Tree.same_keptByNodes table ?_) 0
    show (beyond 0).Similar _ _ (Parser.map _ (Rule.eval 0 (Rule.weaken _) _))
    rw [Rule.eval_weaken]
    exact similar_groupOperand table way hself hwhole

end Grammar

/-! ## Parsing -/

namespace Language

/-- The program that tokens are, where operations in parentheses are tried in some way. -/
def parseBy (L : Language) (way : Grouping) (tokens : List Token) : Except ParseError Program :=
  (way.program L.table).parse tokens

/-- The expression that tokens are. -/
def parseExpressionBy (L : Language) (way : Grouping) (tokens : List Token) :
    Except ParseError Expr :=
  (way.expression L.table).toEnd.parse tokens

theorem parseBy_guarded (L : Language) : L.parseBy .guarded = L.parse := rfl

theorem parseExpressionBy_guarded (L : Language) :
    L.parseExpressionBy .guarded = L.parseExpression := rfl

/-- Each of the grammars beside the one without groups. -/
theorem sameResult_never (L : Language) (way : Grouping) (ts : List Token) :
    SameResult Unrelated Eq (L.parseBy way ts) (L.parseBy .never ts) ∧
    SameResult Unrelated Eq (L.parseExpressionBy way ts) (L.parseExpressionBy .never ts) := by
  have hstart : (beyond 0).near (.start ts) (.start ts) := ⟨⟨rfl, rfl⟩, rfl⟩
  have hsimilar := Grammar.similar_grouping L.table way
  have hstatements : (Rule.sepBy (Grammar.statement L.table (way.expression L.table))
      .newline : Rule [] (List Binding)).Productive :=
    Grammar.grounded_statements L.table fun _ => way.grounded_expression L.table
  have hexpression : (way.expression L.table : Rule [] Expr).Productive :=
    way.grounded_expression L.table
  constructor
  · exact Grammar.sameResult_program beyond_reports (fun _ => rfl) hsimilar hstart
      (hstatements.run_ne_stalled _)
  · exact Grammar.sameResult_expression beyond_reports hsimilar hstart
      (hexpression.run_ne_stalled _)

/-- **The guard before operations in parentheses changes no result.**  Whether they are
tried behind every call that fails, or never, all tokens are parsed as they are with the
guard, as a program and as an expression: to the same value, or to an error of the same
kind at the same position with the same description of what was found there. -/
theorem parse_grouping (L : Language) (way : Grouping) (ts : List Token) :
    SameResult Unrelated Eq (L.parseBy way ts) (L.parse ts) ∧
    SameResult Unrelated Eq (L.parseExpressionBy way ts) (L.parseExpression ts) := by
  obtain ⟨hprogram, hexpression⟩ := L.sameResult_never way ts
  obtain ⟨hprogram', hexpression'⟩ := L.sameResult_never .guarded ts
  rw [← L.parseBy_guarded, ← L.parseExpressionBy_guarded]
  constructor
  · exact hprogram.join hprogram'
  · exact hexpression.join hexpression'

/-- The expectations are not the same: where nothing can start, a group is expected too. -/
example : standard.parseExpression [] =
      .error (.unexpected 0 ["'\\'", "expression", "'('"] "end of input") ∧
    standard.parseExpressionBy .never [] =
      .error (.unexpected 0 ["'\\'", "expression"] "end of input") := by
  decide +kernel

end Language

end Fixity
