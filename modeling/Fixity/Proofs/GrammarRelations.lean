import Fixity.Proofs.GrammarTrace
import Fixity.Proofs.Reports
import Fixity.Proofs.RunRelations

/-! # The rules of the grammar side by side

Two rules of one part of the grammar have related runs if the rules in them do and the
operators they know are the same (`RunRelation.Similar`), whatever relation between runs
it is.  Names, literals, expressions and bindings are the same on both sides; operator
trees need only stand for the same expression (`Tree.Same`), so their operators may differ
in everything but the symbol.  What is said of levels holds for each relation between trees
that is kept by the nodes of operators with one symbol (`Tree.KeptByNodes`).
-/
namespace Fixity

open OperatorTable (Level)

/-- Trees that stand for the same expression. -/
def Tree.Same (t t' : Tree Expr) : Prop := t.toExpr = t'.toExpr

/-- A relation between trees that operators with the same symbol keep. -/
def Tree.KeptByNodes (T : Tree Expr → Tree Expr → Prop) : Prop :=
  ∀ ⦃op op' : Operator⦄ ⦃left left' right right' : Tree Expr⦄, op.symbol = op'.symbol →
    T left left' → T right right' → T (.node op left right) (.node op' left' right')

theorem Tree.same_keptByNodes : Tree.KeptByNodes Tree.Same := by
  intro op op' left left' right right' hop hleft hright
  show Expr.operation _ _ _ = Expr.operation _ _ _
  rw [hop, show left.toExpr = _ from hleft, show right.toExpr = _ from hright]

namespace Grammar
variable {R : RunRelation} {Γ Δ : List Type} {table table' : OperatorTable} {spare : Nat}
  {env : Env Γ} {env' : Env Δ}

/-! ## Pairs -/

/-- Values that are the same stay so. -/
theorem similar_map {α β : Type} {p q : Parser α} (h : R.Similar Eq p q) (f : α → β) :
    R.Similar Eq (Parser.map f p) (Parser.map f q) :=
  h.map fun _ _ hv => congrArg f hv

theorem similar_seq {α β : Type} {p q : Parser α} {p' q' : Parser β} (h : R.Similar Eq p q)
    (h' : R.Similar Eq p' q') : R.Similar Eq (Parser.seq p p') (Parser.seq q q') :=
  h.seq h' fun _ _ _ _ hv hw => Prod.ext hv hw

theorem similar_keepLeft {α β : Type} {V : α → α → Prop} {W : β → β → Prop} {rule : Rule Γ α}
    {rule' : Rule Δ α} {after : Rule Γ β} {after' : Rule Δ β}
    (h : R.Similar V (rule.eval spare env) (rule'.eval spare env'))
    (h' : R.Similar W (after.eval spare env) (after'.eval spare env')) :
    R.Similar V ((rule.keepLeft after).eval spare env)
      ((rule'.keepLeft after').eval spare env') :=
  (h.seq h' (X := fun v v' => V v.1 v'.1) fun _ _ _ _ hv _ => hv).map fun _ _ hv => hv

theorem similar_keepRight {α β : Type} {V : α → α → Prop} {W : β → β → Prop} {rule : Rule Γ α}
    {rule' : Rule Δ α} {after : Rule Γ β} {after' : Rule Δ β}
    (h : R.Similar V (rule.eval spare env) (rule'.eval spare env'))
    (h' : R.Similar W (after.eval spare env) (after'.eval spare env')) :
    R.Similar W ((rule.keepRight after).eval spare env)
      ((rule'.keepRight after').eval spare env') :=
  (h.seq h' (X := fun v v' => W v.2 v'.2) fun _ _ _ _ _ hw => hw).map fun _ _ hw => hw

/-! ## Names and terms -/

/-- A token that is decoded by its symbol, and by nothing else. -/
theorem rel_symbol [R.SameSymbols] {α : Type} {decode : Token → Option α}
    (read : String → Option α) (h : ∀ t, decode t = (Token.symbol? t).bind read) (c d : Cursor)
    (hnear : R.near c d) : Option.Rel Eq (c.peek?.bind decode) (d.peek?.bind decode) := by
  obtain rfl : decode = fun t => (Token.symbol? t).bind read := funext h
  refine RunRelation.Similar.rel_of_eq ?_
  rw [← Option.bind_assoc, ← Option.bind_assoc, RunRelation.SameSymbols.symbol hnear]

theorem similar_symbol [R.SameSymbols] (text : String) :
    R.Similar Eq ((Rule.symbol text : Rule Γ String).eval spare env)
      ((Rule.symbol text : Rule Δ String).eval spare env') := by
  refine .token_of (rel_symbol (fun s => if s = text then some text else none) ?_) _
  intro t
  cases t <;> simp [Token.symbol?]

theorem similar_word [R.SameTokens] : R.Similar Eq ((word : Rule Γ String).eval spare env)
    ((word : Rule Δ String).eval spare env') :=
  .filter_token _ _ (fun _ => rfl) _

/-- Names, where the same operators are declared. -/
theorem similar_name [R.SameTokens] (hdecl : ∀ s, table.declares s = table'.declares s) :
    R.Similar Eq ((name table : Rule Γ Name).eval spare env)
      ((name table' : Rule Δ Name).eval spare env') := by
  refine .label _ (.or (similar_map similar_word _) (similar_map ?_ _))
  exact similar_keepLeft (similar_keepRight (similar_symbol "(") (.filter_token _ _ hdecl _))
    (similar_symbol ")")

/-- Terms, where the expressions in parentheses are related. -/
theorem similar_term [R.SameTokens] (hdecl : ∀ s, table.declares s = table'.declares s)
    {expression : Rule Γ Expr} {expression' : Rule Δ Expr}
    (h : R.Similar Eq (expression.eval spare env) (expression'.eval spare env')) :
    R.Similar Eq ((term table expression).eval spare env)
      ((term table' expression').eval spare env') := by
  show R.Similar Eq (Parser.label _ ((Rule.oneOf _).eval spare env))
    (Parser.label _ ((Rule.oneOf _).eval spare env'))
  rw [Rule.eval_oneOf, Rule.eval_oneOf]
  refine .label _ (.firstOf (.cons ?_ (.cons ?_ (.cons ?_ .nil))) (List.cons_ne_nil _ _))
  · exact similar_map (similar_name hdecl) _
  · exact similar_map (.token _ _) _
  · exact similar_keepLeft (similar_keepRight (similar_symbol "(") h) (similar_symbol ")")

theorem similar_call {term : Rule Γ Expr} {term' : Rule Δ Expr}
    (h : R.Similar Eq (term.eval spare env) (term'.eval spare env')) :
    R.Similar Eq ((call term).eval spare env) ((call term').eval spare env') := by
  refine (h.many1 spare).map ?_
  rintro ⟨e, es⟩ ⟨e', es'⟩ ⟨he, hes⟩
  cases he
  cases List.forall₂_eq_eq_eq ▸ hes
  rfl

/-! ## Operations -/

/-- The parser for the operators of a group. -/
def operators (group : List Operator) : Parser Operator :=
  (Tree.operatorRule Token.symbol? group : Rule [] Operator).eval 0 .nil

/-- The rule for operators refers to no other rule. -/
theorem eval_operatorRule (group : List Operator) :
    (Tree.operatorRule Token.symbol? group : Rule Γ Operator).eval spare env = operators group := by
  unfold operators Tree.operatorRule
  rw [Rule.eval_oneOf, Rule.eval_oneOf, List.map_map, List.map_map]
  rfl

/-- **Levels with related operators**: in each group or in none, and with the same
symbols. -/
structure LevelsSimilar (R : RunRelation) (level level' : Level) : Prop where
  isEmpty (a : Associativity) : (level.group a).isEmpty = (level'.group a).isEmpty
  operators (a : Associativity) : level.group a ≠ [] →
    R.Similar (fun op op' => op.symbol = op'.symbol) (operators (level.group a))
      (operators (level'.group a))

/-- The tails of a level, for one associativity after the other. -/
theorem tailRules_eq_flatMap (level : Level) :
    (Tree.tailRules Token.symbol? level : List (Rule (Tree Expr :: Tree Expr :: Γ) (Tail Expr))) =
      [Associativity.left, .right, .nonAssoc].flatMap fun a =>
        if (level.group a).isEmpty then []
        else [Tree.tailRule Token.symbol? (tailOf a) (level.group a) (rightOf a)] := by
  simp [Tree.tailRules, Level.group, tailOf, rightOf]

section Levels
variable {T : Tree Expr → Tree Expr → Prop} {level level' : Level}
  {this this' next next' : Parser (Tree Expr)}

theorem similar_tailRule (hT : Tree.KeptByNodes T) {a : Associativity}
    (h : LevelsSimilar R level level') (hne : level.group a ≠ [])
    (hthis : R.Similar T this this') (hnext : R.Similar T next next') :
    R.Similar (RunRelation.Similar.Tails T)
      ((Tree.tailRule Token.symbol? (tailOf a) (level.group a) (rightOf a)).eval spare
        (.cons this (.cons next env)))
      ((Tree.tailRule Token.symbol? (tailOf a) (level'.group a) (rightOf a)).eval spare
        (.cons this' (.cons next' env'))) := by
  have hright : R.Similar T ((rightOf a).eval spare (.cons this (.cons next env)))
      ((rightOf a).eval spare (.cons this' (.cons next' env'))) := by
    cases a with
    | left => exact hnext
    | right => exact hthis
    | nonAssoc => exact hnext
  show R.Similar _ (Parser.map _ (Parser.seq ((Tree.operatorRule _ _).eval spare _) _))
    (Parser.map _ (Parser.seq ((Tree.operatorRule _ _).eval spare _) _))
  rw [eval_operatorRule, eval_operatorRule]
  refine ((h.operators a hne).seq (X := fun v w => v.1.symbol = w.1.symbol ∧ T v.2 w.2) hright
    fun _ _ _ _ hop ht => ⟨hop, ht⟩).map ?_
  rintro ⟨op, right⟩ ⟨op', right'⟩ ⟨hop, ht⟩
  have hnode : ∀ left left' : Tree Expr, T left left' →
      T (.node op left right) (.node op' left' right') :=
    fun left left' hleft => hT hop hleft ht
  cases a with
  | left => exact .more hnode
  | right => exact .last hnode
  | nonAssoc => exact .last hnode

theorem similar_tailRules (hT : Tree.KeptByNodes T) (h : LevelsSimilar R level level')
    (hne : level.operators ≠ []) (hthis : R.Similar T this this') (hnext : R.Similar T next next') :
    R.Similar (RunRelation.Similar.Tails T)
      ((Rule.oneOf (Tree.tailRules Token.symbol? level)).eval spare
        (.cons this (.cons next env)))
      ((Rule.oneOf (Tree.tailRules Token.symbol? level')).eval spare
        (.cons this' (.cons next' env'))) := by
  have hne' := tailRules_ne_nil (Γ := Γ) hne
  rw [Rule.eval_oneOf, Rule.eval_oneOf]
  refine .firstOf ?_ fun hnil => hne' (List.map_eq_nil_iff.mp hnil)
  rw [List.forall₂_map_left_iff, List.forall₂_map_right_iff, tailRules_eq_flatMap,
    tailRules_eq_flatMap]
  have hgroups : List.Forall₂ Eq [Associativity.left, .right, .nonAssoc]
      [Associativity.left, .right, .nonAssoc] := List.forall₂_refl _
  refine List.rel_flatMap hgroups ?_
  rintro a _ rfl
  simp only [← h.isEmpty a]
  by_cases hempty : (level.group a).isEmpty = true
  · rw [if_pos hempty, if_pos hempty]
    exact .nil
  · rw [if_neg hempty, if_neg hempty]
    refine .cons (similar_tailRule hT h (fun hnil => hempty ?_) hthis hnext) .nil
    rw [hnil]
    rfl

end Levels

/-- Levels over operands, one beside the other. -/
theorem similar_levelRules {T : Tree Expr → Tree Expr → Prop} (hT : Tree.KeptByNodes T)
    {levels levels' : List Level} (h : List.Forall₂ (LevelsSimilar R) levels levels')
    (hne : ∀ level ∈ levels, level.operators ≠ []) {operand : Rule Γ (Tree Expr)}
    {operand' : Rule Δ (Tree Expr)}
    (ho : R.Similar T (operand.eval spare env) (operand'.eval spare env')) :
    R.Similar T ((Tree.levelRules Token.symbol? levels operand).eval spare env)
      ((Tree.levelRules Token.symbol? levels' operand').eval spare env') := by
  induction h with
  | nil => exact ho
  | cons hlevel _ ih =>
    obtain ⟨hops, hrest⟩ := List.forall_mem_cons.mp hne
    have hnext := ih hrest
    exact .fix (fun this this' hthis => .chain hnext
      (similar_tailRules hT hlevel hops hthis hnext) spare) spare

/-- An operation in parentheses, where it is in scope. -/
theorem similar_group [R.SameSymbols] {T : Tree Expr → Tree Expr → Prop}
    {whole whole' : Parser (Tree Expr)} (h : R.Similar T whole whole') :
    R.Similar T
      ((Rule.between Delimiters.parentheses.opening Delimiters.parentheses.closing
        (.ref .here)).eval spare (.cons whole env))
      ((Rule.between Delimiters.parentheses.opening Delimiters.parentheses.closing
        (.ref .here)).eval spare (.cons whole' env')) := by
  refine similar_keepLeft (W := Eq) (similar_keepRight (V := Eq) ?_ h) ?_
  · exact similar_map (similar_symbol "(") _
  · exact similar_map (similar_symbol ")") _

theorem similar_value {p q : Parser Expr} (h : R.Similar Eq p q) :
    R.Similar Tree.Same (Parser.map Tree.value p) (Parser.map Tree.value q) :=
  h.map fun _ _ he => he

/-- Levels are similar to themselves. -/
theorem levelsSimilar_refl [R.SameSymbols] (level : Level) : LevelsSimilar R level level where
  isEmpty _ := rfl
  operators a hne := by
    unfold operators Tree.operatorRule
    rw [Rule.eval_oneOf, List.map_map]
    refine .firstOf ?_ fun hnil => hne (List.map_eq_nil_iff.mp hnil)
    rw [List.forall₂_map_left_iff, List.forall₂_map_right_iff]
    refine List.forall₂_same.mpr fun op _ => ?_
    refine RunRelation.Similar.mono (V := Eq) (.token_of (rel_symbol
      (fun s => if s = op.symbol then some op else none) fun t => ?_) _)
      fun _ _ hv => congrArg Operator.symbol hv
    cases t <;> simp [Token.symbol?]

/-- The levels of one table over operands that are related. -/
theorem similar_levels [R.SameSymbols] {T : Tree Expr → Tree Expr → Prop}
    (hT : Tree.KeptByNodes T) (table : OperatorTable) {operand : Rule Γ (Tree Expr)}
    {operand' : Rule Δ (Tree Expr)}
    (h : R.Similar T (operand.eval spare env) (operand'.eval spare env')) :
    R.Similar T ((Tree.levelRules Token.symbol? table.levels operand).eval spare env)
      ((Tree.levelRules Token.symbol? table.levels operand').eval spare env') :=
  similar_levelRules hT (List.forall₂_same.mpr fun level _ => levelsSimilar_refl level)
    table.operators_ne_nil_of_mem_levels h

/-! ## Expressions and bindings -/

theorem similar_lambda [R.SameTokens] {expression : Rule Γ Expr} {expression' : Rule Δ Expr}
    (h : R.Similar Eq (expression.eval spare env) (expression'.eval spare env')) :
    R.Similar Eq ((lambda expression).eval spare env) ((lambda expression').eval spare env') := by
  refine similar_keepRight (similar_symbol "\\") (.commit (similar_map ?_ _))
  exact similar_seq similar_word (similar_keepRight (similar_symbol "->") h)

theorem similar_statement [R.SameTokens] (hdecl : ∀ s, table.declares s = table'.declares s)
    {expression : Rule Γ Expr} {expression' : Rule Δ Expr}
    (h : R.Similar Eq (expression.eval spare env) (expression'.eval spare env')) :
    R.Similar Eq ((statement table expression).eval spare env)
      ((statement table' expression').eval spare env') := by
  refine .label _ (similar_keepRight (.token _ _) (.commit (similar_map ?_ _)))
  exact similar_seq (similar_keepLeft (similar_name hdecl) (similar_symbol "=")) h

theorem similar_statements [R.SameTokens] (hdecl : ∀ s, table.declares s = table'.declares s)
    {expression : Rule Γ Expr} {expression' : Rule Δ Expr}
    (h : R.Similar Eq (expression.eval spare env) (expression'.eval spare env')) :
    R.Similar Eq ((Rule.sepBy (statement table expression) .newline).eval spare env)
      ((Rule.sepBy (statement table' expression') .newline).eval spare env') := by
  refine ((similar_statement hdecl h).sepBy (.token _ _ : R.Similar Eq _ _) spare).mono ?_
  intro bs bs' hbs
  exact List.forall₂_eq_eq_eq ▸ hbs

/-! ## Texts -/

variable {E : List String → List String → Prop} {ts : List Token}

/-- **Texts that are one expression**, by two rules for expressions. -/
theorem sameResult_expression (hR : R.Reports E) {expression expression' : Rule [] Expr}
    (h : R.Similar Eq (expression.eval 0 .nil) (expression'.eval 0 .nil))
    (hstart : R.near (.start ts) (.start ts)) (hends : expression.run (.start ts) ≠ .stalled) :
    SameResult E Eq (expression.toEnd.parse ts) (expression'.toEnd.parse ts) :=
  SameResult.found (hR.toEnd (h _ _ hstart) hends)

/-- **Programs**, by two rules for expressions and two tables that declare the same. -/
theorem sameResult_program [R.SameTokens] (hR : R.Reports E)
    (hdecl : ∀ s, table.declares s = table'.declares s)
    {expression expression' : Rule [] Expr}
    (h : R.Similar Eq (expression.eval 0 .nil) (expression'.eval 0 .nil))
    (hstart : R.near (.start ts) (.start ts))
    (hends : (Rule.sepBy (statement table expression) .newline).run (.start ts) ≠ .stalled) :
    SameResult E Eq
      (((Rule.sepBy (statement table expression) .newline).toEnd.map Program.mk).parse ts)
      (((Rule.sepBy (statement table' expression') .newline).toEnd.map Program.mk).parse ts) := by
  rw [Rule.parse_map, Rule.parse_map]
  have hbindings := similar_statements hdecl h _ _ hstart
  exact (SameResult.found (hR.toEnd hbindings hends)).map Program.mk

end Grammar

end Fixity
