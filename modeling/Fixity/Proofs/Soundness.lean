import Fixity.Proofs.Derivation
import Fixity.Proofs.Reading

/-! # What the parsers of the grammar read

Every rule of the grammar reads the phrases of its part of speech and nothing
else: its values are derived by the tokens that were read, and its failures, with
all that they leave in the record, lie behind beginnings of such phrases.
-/
namespace Fixity

open OperatorTable (Level levelAt mem_select)

namespace Rule
variable {Γ : List Type} {α : Type} (spare : Nat) (env : Env Γ) {n : Nat}

/-- A list of rules in order of preference means a list of parsers. -/
theorem eval_oneOf (rules : List (Rule Γ α)) :
    (oneOf rules).eval spare env = Parser.firstOf (rules.map fun rule => rule.eval spare env) := by
  show Parser.firstOf (List.ofFn fun i => (rules.get i).eval spare env) = _
  congr 1
  apply List.ext_getElem <;> simp

theorem reads_symbol (text : String) :
    ((symbol text : Rule Γ String).eval spare env).Reads (fun ts _ => ts = [.symbol text])
      (fun ts => ts = []) n :=
  .exactly (.symbol text) text _

theorem reads_keyword (text : String) :
    ((keyword text : Rule Γ String).eval spare env).Reads (fun ts _ => ts = [.word text])
      (fun ts => ts = []) n :=
  .exactly (.word text) text _

theorem reads_newline :
    ((newline : Rule Γ Unit).eval spare env).Reads (fun ts _ => ts = [.newline])
      (fun ts => ts = []) n :=
  .exactly .newline () _

end Rule

namespace Grammar
variable {Γ : List Type} {table : OperatorTable} {spare n : Nat} {env : Env Γ}

theorem isKeyword_iff (w : String) : isKeyword w = true ↔ w = "let" := by
  simp [isKeyword, keywords, letWord]

/-! ## Names and terms -/

theorem reads_word :
    ((word : Rule Γ String).eval spare env).Reads (fun ts w => ts = [.word w] ∧ w ≠ "let")
      (fun ts => ts = []) n := by
  refine (Parser.Reads.filter_token _ _ _ _).mono ?_ fun _ => id
  rintro ts w ⟨t, rfl, ht, hw⟩
  rw [Token.word?_eq_some.mp ht]
  refine ⟨rfl, fun h => ?_⟩
  rw [(isKeyword_iff w).mpr h] at hw
  cases hw

theorem reads_enclosedOperator :
    ((enclosedOperator table : Rule Γ String).eval spare env).Reads
      (fun ts s => Derives table (.name (.operator s)) ts) (Begins table .name) n := by
  refine (Parser.Reads.between (Rule.reads_symbol spare env "(") (Rule.reads_symbol spare env ")")
    (Parser.Reads.filter_token _ _ _ _) rfl).mono ?_ ?_
  · rintro ts s ⟨us, rfl, t, rfl, ht, hs⟩
    obtain ⟨op, hop, rfl⟩ := (table.declares_iff s).mp hs
    rw [Token.symbol?_eq_some.mp ht]
    exact .enclosed hop
  · rintro ts (rfl | ⟨us, rfl, rfl | ⟨s, t, rfl, ht, hs⟩⟩)
    · exact .name
    · exact .enclosed
    · obtain ⟨op, hop, rfl⟩ := (table.declares_iff s).mp hs
      rw [Token.symbol?_eq_some.mp ht]
      exact .enclosing hop

theorem reads_name :
    ((name table : Rule Γ Name).eval spare env).Reads (fun ts x => Derives table (.name x) ts)
      (Begins table .name) n := by
  refine Parser.Reads.label _ (Parser.Reads.or (reads_word.map ?_ ?_)
    (reads_enclosedOperator.map (fun _ _ => id) fun _ => id))
  · rintro ts w ⟨rfl, hw⟩
    exact .word hw
  · rintro ts rfl
    exact .name

theorem reads_literal :
    ((literal : Rule Γ Literal).eval spare env).Reads
      (fun ts l => Derives table (.term (.literal l)) ts) (fun ts => ts = []) n := by
  refine (Parser.Reads.token _ _).mono ?_ fun _ => id
  rintro ts l ⟨t, rfl, ht⟩
  cases t <;> cases ht
  · exact .integer
  · exact .string

/-- A term, where the expression inside parentheses is read with fewer tokens left. -/
theorem reads_term {expression : Rule Γ Expr}
    (h : (expression.eval spare env).Reads (fun ts e => Derives table (.expression e) ts)
      (Begins table .expression) (n - 1)) (hnil : Begins table .expression []) :
    ((term table expression).eval spare env).Reads (fun ts e => Derives table (.term e) ts)
      (Begins table .term) n := by
  show (Parser.label _ ((Rule.oneOf _).eval spare env)).Reads _ _ n
  rw [Rule.eval_oneOf]
  refine Parser.Reads.label _ (Parser.Reads.firstOf ?_ (.termName .name))
  simp only [List.map_cons, List.map_nil, List.forall_mem_cons]
  refine ⟨?_, ?_, ?_, by simp⟩
  · exact reads_name.map (fun _ _ => .name) fun _ => .termName
  · refine reads_literal.map (fun _ _ => id) ?_
    rintro ts rfl
    exact .termName .name
  · refine (Parser.Reads.between (Rule.reads_symbol spare env "(")
      (Rule.reads_symbol spare env ")") h hnil).mono ?_ ?_
    · rintro ts e ⟨us, rfl, he⟩
      exact .group he
    · rintro ts (rfl | ⟨us, rfl, hus | ⟨e, he⟩⟩)
      · exact .termName .name
      · exact .group hus
      · exact .grouped he

/-- **Calls are what is made of terms**: one term is itself, and several are the first one
applied to the others. -/
theorem derives_call_iff {e : Expr} {ts : List Token} :
    Derives table (.operation [] e) ts ↔ ∃ first others us vs,
      e = .ofTerms first others ∧ ts = us ++ vs ∧ Derives table (.term first) us ∧
        Derives table (.arguments others) vs := by
  constructor
  · intro h
    cases h with
    | single h => exact ⟨e, [], ts, [], rfl, (List.append_nil ts).symm, h, .noArgument⟩
    | call h hs => exact ⟨_, _, _, _, rfl, rfl, h, hs⟩
  · rintro ⟨first, others, us, vs, rfl, rfl, h, hs⟩
    cases others with
    | nil =>
      cases hs
      rw [List.append_nil]
      exact .single h
    | cons e es => exact .call h hs

/-- A call. -/
theorem reads_call {term : Rule Γ Expr}
    (h : (term.eval spare env).Reads (fun ts e => Derives table (.term e) ts)
      (Begins table .term) n) :
    ((call term).eval spare env).Reads (fun ts e => Derives table (.operation [] e) ts)
      (Begins table (.operation [])) n := by
  have hm : (Parser.many1 spare (term.eval spare env)).Reads
      (fun ts v => Derives table (.operation [] (.ofTerms v.1 v.2)) ts)
      (Begins table (.operation [])) n :=
    Parser.Reads.many1 (fun ts es => Derives table (.arguments es) ts)
      (Begins table .arguments) spare h (fun ts e he => he.ne_nil) .noArgument
      (fun _ _ _ _ => .argument) (fun _ => .argument) (fun _ _ _ => .nextArgument)
      (fun _ _ _ _ h hs => derives_call_iff.mpr ⟨_, _, _, _, rfl, rfl, h, hs⟩)
      (fun _ => .function) (fun _ _ _ => .call)
  exact hm.map (fun _ _ => id) fun _ => id

/-! ## Operations -/

/-- A tail at a precedence, complete. -/
def TailDone (table : OperatorTable) (k : Int32) (tighter : List Int32) (ts : List Token) :
    Tail Expr → Prop
  | .more op right => op ∈ (levelAt table.operators k).left ∧
      ∃ us, ts = .symbol op.symbol :: us ∧ Derives table (.operation tighter right.toExpr) us
  | .last op right => ∃ us, ts = .symbol op.symbol :: us ∧
      (op ∈ (levelAt table.operators k).right ∧
          Derives table (.operation (k :: tighter) right.toExpr) us ∨
        op ∈ (levelAt table.operators k).nonAssoc ∧
          Derives table (.operation tighter right.toExpr) us)

/-- A tail at a precedence of which not even the operator has been read, or not all. -/
def TailBegun (table : OperatorTable) (k : Int32) (tighter : List Int32)
    (ts : List Token) : Prop :=
  ts = [] ∨ Begins table (.tails k tighter) ts

theorem begins_operation (ks : List Int32) : Begins table (.operation ks) [] := by
  induction ks with
  | nil => exact .function (.termName .name)
  | cons k tighter ih => exact .operand ih

theorem begins_expression : Begins table .expression [] := .operation (begins_operation _)

theorem reads_operatorRule (group : List Operator) :
    ((Tree.operatorRule Token.symbol? group : Rule Γ Operator).eval spare env).Reads
      (fun ts op => op ∈ group ∧ ts = [.symbol op.symbol]) (fun ts => ts = []) n := by
  rw [Tree.operatorRule, Rule.eval_oneOf]
  refine Parser.Reads.firstOf ?_ rfl
  simp only [List.mem_map, forall_exists_index, and_imp]
  rintro _ _ op hop rfl rfl
  refine (Parser.Reads.token _ _).mono ?_ fun _ => id
  rintro ts v ⟨t, rfl, ht⟩
  split at ht
  · rename_i hs
    cases ht
    exact ⟨hop, by rw [Token.symbol?_eq_some.mp hs]⟩
  · cases ht

/-- The tail that an operator with its right-hand side is: only one that groups to the
left lets the level go on. -/
def tailOf {α : Type} : Associativity → Operator → Tree α → Tail α
  | .left => .more
  | .right => .last
  | .nonAssoc => .last

/-- What the right-hand side of an operator is read by: this level for one that groups
to the right, the tighter one for the others. -/
def rightOf {α : Type} : Associativity → Rule (Tree α :: Tree α :: Γ) (Tree α)
  | .left => .ref (.there .here)
  | .right => .ref .here
  | .nonAssoc => .ref (.there .here)

/-- A level has one rule for each associativity that it has operators of. -/
theorem mem_tailRules {α : Type} {level : Level} {rule : Rule (Tree α :: Tree α :: Γ) (Tail α)} :
    rule ∈ Tree.tailRules Token.symbol? level ↔ ∃ a, level.group a ≠ [] ∧
      rule = Tree.tailRule Token.symbol? (tailOf a) (level.group a) (rightOf a) := by
  simp only [Tree.tailRules, List.mem_append, List.mem_ite_nil_left, List.mem_singleton,
    List.isEmpty_iff]
  constructor
  · rintro ((h | h) | h)
    · exact ⟨.left, h⟩
    · exact ⟨.right, h⟩
    · exact ⟨.nonAssoc, h⟩
  · rintro ⟨a, h⟩
    cases a with
    | left => exact Or.inl (Or.inl h)
    | right => exact Or.inl (Or.inr h)
    | nonAssoc => exact Or.inr h

/-- The levels, or their precedences, that the right-hand side of an operator has. -/
def levelsRight {α : Type} (level : α) (tighter : List α) : Associativity → List α
  | .left => tighter
  | .right => level :: tighter
  | .nonAssoc => tighter

/-- The tails of a level, where the level itself is read with fewer tokens left. -/
theorem reads_tailRules {k : Int32} {tighter : List Int32} {this next : Parser (Tree Expr)}
    (hthis : this.Reads (fun ts t => Derives table (.operation (k :: tighter) t.toExpr) ts)
      (Begins table (.operation (k :: tighter))) (n - 1))
    (hnext : next.Reads (fun ts t => Derives table (.operation tighter t.toExpr) ts)
      (Begins table (.operation tighter)) (n - 1)) :
    ((Rule.oneOf (Tree.tailRules Token.symbol? (levelAt table.operators k))).eval spare
      (.cons this (.cons next env))).Reads
      (TailDone table k tighter) (TailBegun table k tighter) n := by
  rw [Rule.eval_oneOf]
  refine Parser.Reads.firstOf ?_ (Or.inl rfl)
  simp only [List.mem_map, forall_exists_index, and_imp]
  rintro _ rule hrule rfl
  obtain ⟨a, -, rfl⟩ := mem_tailRules.mp hrule
  have hright : ((rightOf a).eval spare (.cons this (.cons next env))).Reads
      (fun ts t => Derives table (.operation (levelsRight k tighter a) t.toExpr) ts)
      (Begins table (.operation (levelsRight k tighter a))) (n - 1) := by
    cases a with
    | left => exact hnext
    | right => exact hthis
    | nonAssoc => exact hnext
  refine ((reads_operatorRule _).seq hright ?_ (begins_operation _)).map ?_ ?_
  · rintro ts op ⟨-, rfl⟩
    exact List.cons_ne_nil _ _
  · rintro ts ⟨op, right⟩ ⟨us, vs, rfl, ⟨hop, rfl⟩, hr⟩
    cases a with
    | left => exact ⟨hop, vs, rfl, hr⟩
    | right => exact ⟨vs, rfl, Or.inl ⟨hop, hr⟩⟩
    | nonAssoc => exact ⟨vs, rfl, Or.inr ⟨hop, hr⟩⟩
  · rintro ts (rfl | ⟨us, op, vs, rfl, ⟨hop, rfl⟩, hvs⟩)
    · exact Or.inl rfl
    · refine Or.inr ?_
      cases a with
      | left => exact .leftTail (mem_select.mp hop) hvs
      | right => exact .rightTail (mem_select.mp hop) hvs
      | nonAssoc => exact .nonAssocTail (mem_select.mp hop) hvs

/-- **A level** over the tighter ones. -/
theorem reads_levelRule {k : Int32} {tighter : List Int32} {next : Rule Γ (Tree Expr)}
    (h : (next.eval spare env).Reads (fun ts t => Derives table (.operation tighter t.toExpr) ts)
      (Begins table (.operation tighter)) n) :
    ((Tree.levelRule Token.symbol? (levelAt table.operators k) next).eval spare env).Reads
      (fun ts t => Derives table (.operation (k :: tighter) t.toExpr) ts)
      (Begins table (.operation (k :: tighter))) n := by
  refine Parser.Reads.fix (fun m this hm hthis => ?_) spare
  refine Parser.Reads.chain
    (fun tree ts tree' => Derives table (.tails k tighter tree.toExpr tree'.toExpr) ts)
    (Begins table (.tails k tighter)) spare (h.of_le hm)
    (reads_tailRules hthis (h.of_le (Nat.le_of_lt hm))) ?_ (fun _ => .noTail) ?_ ?_ ?_ ?_
    (fun _ _ _ _ => .level) (fun _ => .operand) (fun _ _ _ => .level)
  · rintro ts (⟨op, right⟩ | ⟨op, right⟩) hd
    · obtain ⟨-, us, rfl, -⟩ := hd
      exact List.cons_ne_nil _ _
    · obtain ⟨us, rfl, -⟩ := hd
      exact List.cons_ne_nil _ _
  · rintro tree ts op right us tree' ⟨hop, vs, rfl, hright⟩ hus
    exact .leftTail (mem_select.mp hop) hright hus
  · rintro tree ts op right ⟨us, rfl, ⟨hop, hright⟩ | ⟨hop, hright⟩⟩
    · exact .rightTail (mem_select.mp hop) hright
    · exact .nonAssocTail (mem_select.mp hop) hright
  · rintro ts (rfl | hts) hne
    · exact absurd rfl hne
    · exact hts
  · rintro ts op right us ⟨hop, vs, rfl, hright⟩ hus
    exact .nextTail (mem_select.mp hop) hright hus

theorem reads_levelRules (ks : List Int32) {operand : Rule Γ (Tree Expr)}
    (h : (operand.eval spare env).Reads (fun ts t => Derives table (.operation [] t.toExpr) ts)
      (Begins table (.operation [])) n) :
    ((Tree.levelRules Token.symbol? (table.levelsAt ks) operand).eval spare env).Reads
      (fun ts t => Derives table (.operation ks t.toExpr) ts)
      (Begins table (.operation ks)) n := by
  induction ks with
  | nil => exact h
  | cons k tighter ih => exact reads_levelRule ih

/-- **Operands and operators.**  A group in parentheses, which the operands have
anyway, adds nothing. -/
theorem reads_operation {operand : Rule Γ Expr}
    (h : (operand.eval spare env).Reads (fun ts e => Derives table (.operation [] e) ts)
      (Begins table (.operation [])) n) :
    ((operation table operand).eval spare env).Reads
      (fun ts e => Derives table (.operation table.precedences e) ts)
      (Begins table (.operation table.precedences)) n := by
  have htree : ((Tree.rule Token.symbol? table (some .parentheses) operand).eval spare env).Reads
      (fun ts t => Derives table (.operation table.precedences t.toExpr) ts)
      (Begins table (.operation table.precedences)) n := by
    refine Parser.Reads.fix (fun m whole hm hwhole => ?_) spare
    rw [table.levels_eq_map]
    refine reads_levelRules table.precedences (Parser.Reads.orGroup ?_ ?_)
    · show (Parser.map Tree.value (operand.weaken.eval spare (.cons whole env))).Reads _ _ _
      rw [Rule.eval_weaken]
      exact (h.of_le hm).map (fun _ _ => id) fun _ => id
    · refine (Parser.Reads.between
        ((Rule.reads_symbol spare _ "(").map (fun _ _ => id) fun _ => id)
        ((Rule.reads_symbol spare _ ")").map (fun _ _ => id) fun _ => id) hwhole
        (begins_operation _)).mono ?_ ?_
      · rintro ts t ⟨us, rfl, ht⟩
        exact .single (.group (derives_of_operation ht))
      · rintro ts (rfl | ⟨us, rfl, hus | ⟨t, ht⟩⟩)
        · exact begins_operation _
        · exact .function (.group (.operation hus))
        · exact .function (.grouped (derives_of_operation ht))
  exact htree.map (fun _ _ => id) fun _ => id

/-! ## Expressions -/

theorem reads_lambda {expression : Rule Γ Expr}
    (h : (expression.eval spare env).Reads (fun ts e => Derives table (.expression e) ts)
      (Begins table .expression) (n - 1)) :
    ((lambda expression).eval spare env).Reads (fun ts e => Derives table (.expression e) ts)
      (Begins table .expression) n := by
  have hbody := (Rule.reads_symbol spare env "->").keepRight (h.of_le (Nat.sub_le _ 1))
    begins_expression
  have hword : (word.eval spare env).Reads (fun ts w => ts = [.word w] ∧ w ≠ "let")
      (fun ts => ts = []) (n - 1) := reads_word
  have hrest := hword.seq (hbody.of_le (Nat.sub_le _ 1))
    (by rintro ts w ⟨rfl, -⟩; exact List.cons_ne_nil _ _) (Or.inl rfl)
  have hparts : ((((word.seq (.keepRight (.symbol "->") expression)).map
      fun parts => Expr.lambda (.word parts.1) parts.2)).eval spare env).Reads
      (fun ts e => Derives table (.expression e) (.symbol "\\" :: ts))
      (fun ts => Begins table .expression (.symbol "\\" :: ts)) (n - 1) := by
    refine hrest.map ?_ ?_
    · rintro ts ⟨w, e⟩ ⟨us, vs, rfl, ⟨rfl, hw⟩, ws, rfl, he⟩
      exact .lambda hw he
    · rintro ts (rfl | ⟨us, w, vs, rfl, ⟨rfl, hw⟩, rfl | ⟨ws, rfl, hws⟩⟩)
      · exact .lambda
      · exact .parameter hw
      · exact .body hw hws
  refine ((Rule.reads_symbol spare env "\\").keepRight_commit hparts .lambda).mono ?_ ?_
  · rintro ts e ⟨us, rfl, he⟩
    exact he
  · rintro ts (rfl | ⟨us, rfl, hus⟩)
    · exact begins_expression
    · exact hus

/-- **An expression.** -/
theorem reads_expression :
    ((expression table : Rule Γ Expr).eval spare env).Reads
      (fun ts e => Derives table (.expression e) ts) (Begins table .expression) n := by
  refine Parser.Reads.fix (fun m self _ hself => ?_) spare
  refine Parser.Reads.or (reads_lambda ?_) ?_
  · exact hself
  · refine (reads_operation (reads_call (reads_term ?_ begins_expression))).mono
      (fun _ _ => derives_of_operation) fun _ => .operation
    exact hself

/-! ## Programs -/

theorem reads_binding {expression : Rule Γ Expr}
    (h : (expression.eval spare env).Reads (fun ts e => Derives table (.expression e) ts)
      (Begins table .expression) n) :
    ((binding table expression).eval spare env).Reads (fun ts b => Derives table (.binding b) ts)
      (Begins table .binding) n := by
  have hname : ((name table : Rule Γ Name).eval spare env).Reads
      (fun ts x => Derives table (.name x) ts) (Begins table .name) (n - 1) := reads_name
  have hbound := hname.keepLeft (Rule.reads_symbol spare env "=") fun ts x hx => hx.ne_nil
  have hrest := hbound.seq (h.of_le (by omega)) (by rintro ts x ⟨us, rfl, -⟩; simp)
    begins_expression
  have hparts : (((((name table).keepLeft (.symbol "=")).seq expression).map
      fun parts => (⟨parts.1, parts.2⟩ : Binding)).eval spare env).Reads
      (fun ts b => Derives table (.binding b) (.word "let" :: ts))
      (fun ts => Begins table .binding (.word "let" :: ts)) (n - 1) := by
    refine hrest.map ?_ ?_
    · rintro ts ⟨x, e⟩ ⟨us, vs, rfl, ⟨ws, rfl, hx⟩, he⟩
      rw [List.append_assoc]
      exact .binding hx he
    · rintro ts ((hts | ⟨x, hx⟩) | ⟨us, x, vs, rfl, ⟨ws, rfl, hx⟩, hvs⟩)
      · exact .bound hts
      · exact .equals hx
      · rw [List.append_assoc]
        exact .value hx hvs
  refine ((Rule.reads_keyword spare env "let").keepRight_commit hparts (.bound .name)).mono ?_ ?_
  · rintro ts b ⟨us, rfl, hb⟩
    exact hb
  · rintro ts (rfl | ⟨us, rfl, hus⟩)
    · exact .binding
    · exact hus

/-- Bindings, one on each line. -/
theorem reads_bindings :
    ((Rule.sepBy (statement table (expression table)) .newline : Rule Γ (List Binding)).eval
      spare env).Reads (fun ts bs => Derives table (.program ⟨bs⟩) ts) (Begins table .program) n :=
  Parser.Reads.sepBy (fun ts bs => Derives table (.further bs) ts) (Begins table .further) spare
    (Parser.Reads.label _ (reads_binding reads_expression)) (Rule.reads_newline spare env) .binding
    .noFurther (fun _ _ _ _ => .further) (fun _ => .further) (fun _ _ _ => .nextFurther) .empty
    (fun _ _ _ _ => .program) (fun _ => .first) (fun _ _ _ => .program)

end Grammar

end Fixity
