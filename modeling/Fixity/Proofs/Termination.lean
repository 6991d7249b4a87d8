import Fixity.Language
import Fixity.Proofs.Fuel
import Fixity.Proofs.Soundness

/-! # Parsing ends

Terms, calls, precedence levels, expressions and statements read a token whenever they give
a value, whatever the rules in scope do: each starts with a token or with something that
does (`Rule.Advances`).  So the loops of the grammar move on, and its recursive rules enter
themselves behind a token only (`Rule.Grounded`).

The rules of a table are as high as it has levels, up to a constant.  Parsing is therefore
a run on fuel (`Rule.spend`), with as many units as there are tokens and levels, and a few
more (`Language.fuel`).
-/
namespace Fixity

open OperatorTable (Level)

/-! ## Rules that read a token -/

namespace Rule.Advances
variable {Γ : List Type} {α β γ : Type} {rule first second : Rule Γ α} {sure : Marks Γ}

theorem map (h : rule.Advances sure) (f : α → β) : (rule.map f).Advances sure := by
  intro spare env hkeeps hadv c v c' hok
  obtain ⟨w, d, hrule, hd⟩ := Outcome.bind_eq_ok.mp hok
  cases hd
  exact h spare env hkeeps hadv c w c' hrule

theorem keepLeft (h : rule.Advances sure) (after : Rule Γ β) :
    (rule.keepLeft after).Advances sure :=
  (h.seq after).map _

theorem keepRight (h : rule.Advances sure) (after : Rule Γ β) :
    (rule.keepRight after).Advances sure :=
  (h.seq after).map _

theorem between (h : rule.Advances sure) (right : Rule Γ β) (inner : Rule Γ γ) :
    (Rule.between rule right inner).Advances sure :=
  (h.keepRight inner).keepLeft right

theorem filter (h : rule.Advances sure) (accepts : α → Bool) (expected : String) :
    (rule.filter accepts expected).Advances sure := by
  intro spare env hkeeps hadv c v c' hok
  obtain ⟨w, d, hrule, hd⟩ := Outcome.bind_eq_ok.mp hok
  split at hd
  · cases hd
    exact h spare env hkeeps hadv c v c' hrule
  · cases hd

/-- What is done about failures gives no value. -/
theorem of_recover {p : Parser α} {c c' : Cursor} {v : α} {next : Failure → Cursor → Outcome α}
    (hp : p.Advances) (hok : (p c).recover next = .ok v c')
    (hnext : ∀ f d, p c = .fail f d → next f d = .ok v c' → c'.remaining < c.remaining) :
    c'.remaining < c.remaining := by
  rw [Outcome.recover_eq_handle] at hok
  cases hpc : p c with
  | ok w d =>
    rw [hpc] at hok
    cases hok
    exact hp c v c' hpc
  | fail f d =>
    rw [hpc, Outcome.handle] at hok
    split at hok
    · cases hok
    · exact hnext f d hpc hok
  | stalled =>
    rw [hpc] at hok
    cases hok

theorem label (h : rule.Advances sure) (name : String) : (rule.label name).Advances sure := by
  intro spare env hkeeps hadv c v c' hok
  refine of_recover (h spare env hkeeps hadv) hok fun f d _ hlabel => ?_
  split at hlabel <;> cases hlabel

theorem commit (h : rule.Advances sure) : rule.commit.Advances sure := by
  intro spare env hkeeps hadv c v c' hok
  exact of_recover (h spare env hkeeps hadv) hok fun _ _ _ => nofun

/-- The second alternative starts where the first did. -/
theorem again {p q : Parser α} {c c' d : Cursor} {f : Failure} {v : α} (hp : forward.Keeps p)
    (hq : q.Advances) (h : p c = .fail f d)
    (hok : ((q (d.restore c.position)).recover fun f' e =>
      .fail (f.merge f') (e.restore c.position)) = .ok v c') :
    c'.remaining < c.remaining := by
  have hle := (Parser.ahead_of_fail hp h).restore.remaining_le
  have hlt := of_recover hq hok fun _ _ _ => nofun
  omega

theorem or (h : first.Advances sure) (h' : second.Advances sure) :
    (first.or second).Advances sure := by
  intro spare env hkeeps hadv c v c' hok
  refine of_recover (h spare env hkeeps hadv) hok fun f d hfail hsecond => ?_
  exact again (forward.keeps_eval spare first env hkeeps) (h' spare env hkeeps hadv) hfail hsecond

theorem orGroup (h : first.Advances sure) (h' : second.Advances sure) :
    (first.orGroup second).Advances sure := by
  intro spare env hkeeps hadv c v c' hok
  refine of_recover (h spare env hkeeps hadv) hok fun f d hfail hsecond => ?_
  split at hsecond
  · exact again (forward.keeps_eval spare first env hkeeps) (h' spare env hkeeps hadv) hfail
      hsecond
  · cases hsecond

theorem tryEach {ps : List (Parser α)} (hkeeps : ∀ p ∈ ps, forward.Keeps p)
    (hps : ∀ p ∈ ps, p.Advances) {c c' : Cursor} {failure : Option Failure} {v : α}
    (hok : Parser.tryEach c.position ps failure c = .ok v c') : c'.remaining < c.remaining := by
  induction ps generalizing c failure with
  | nil => cases hok
  | cons p ps ih =>
    obtain ⟨hp, hps⟩ := List.forall_mem_cons.mp hps
    obtain ⟨hkeepsp, hkeeps⟩ := List.forall_mem_cons.mp hkeeps
    refine of_recover hp hok fun f d hfail hrest => ?_
    have hle := (Parser.ahead_of_fail hkeepsp hfail).restore.remaining_le
    have hlt := ih hkeeps hps (c := d.restore c.position) hrest
    omega

theorem firstOf {n : Nat} {rules : Fin n → Rule Γ α} (h : ∀ i, (rules i).Advances sure) :
    (Rule.firstOf rules).Advances sure := by
  intro spare env hkeeps hadv c v c' hok
  refine tryEach ?_ ?_ hok
  · simp only [List.mem_ofFn, forall_exists_index]
    rintro _ i rfl
    exact forward.keeps_eval spare (rules i) env hkeeps
  · simp only [List.mem_ofFn, forall_exists_index]
    rintro _ i rfl
    exact h i spare env hkeeps hadv

theorem oneOf {rules : List (Rule Γ α)} (h : ∀ rule ∈ rules, rule.Advances sure) :
    (Rule.oneOf rules).Advances sure :=
  firstOf fun i => h _ (rules.get_mem i)

theorem many1 (h : rule.Advances sure) : rule.many1.Advances sure := by
  intro spare env hkeeps hadv c v c' hok
  rw [eval, Parser.many1_eq_seq] at hok
  obtain ⟨w, d, hrule, hd⟩ := Outcome.bind_eq_ok.mp hok
  obtain ⟨ws, d', hmany, hd'⟩ := Outcome.bind_eq_ok.mp hd
  cases hd'
  have hlt := h spare env hkeeps hadv c w d hrule
  have hahead := Parser.ahead_of_ok ((forward.keeps_eval spare rule env hkeeps).many spare) hmany
  exact Nat.lt_of_le_of_lt hahead.remaining_le hlt

theorem chain {operand : Rule Γ (Tree α)} (h : operand.Advances sure) (level : Level)
    (tail : Rule Γ (Tail α)) : (Rule.chain level operand tail).Advances sure := by
  intro spare env hkeeps hadv c v c' hok
  obtain ⟨tree, d, hoperand, hd⟩ := Outcome.bind_eq_ok.mp hok
  have hlt := h spare env hkeeps hadv c tree d hoperand
  have htail := forward.keeps_eval spare tail env hkeeps
  have hahead := Parser.ahead_of_ok (htail.joinTails _ tree) hd
  exact Nat.lt_of_le_of_lt hahead.remaining_le hlt

/-- A recursive rule reads a token if its body does, wherever the rule itself does. -/
theorem fix {body : Rule (α :: Γ) α} (h : body.Advances (sure.cons True)) :
    (Rule.fix body).Advances sure := by
  intro spare env hkeeps hadv c v c' hok
  have henv : env.Bears sure (fun _ _ => False) 0 := ⟨hkeeps, hadv, nofun, nofun⟩
  exact advances_iterate h henv spare _ c v c' hok

theorem share {shared : Rule Γ β} {body : Rule (β :: Γ) α} (h : shared.Advances sure)
    (hbody : body.Advances (sure.cons True)) : (Rule.share shared body).Advances sure := by
  intro spare env hkeeps hadv
  refine hbody spare _ (fun γ x => ?_) fun γ x hx => ?_
  · cases x with
    | here => exact forward.keeps_eval spare shared env hkeeps
    | there x => exact hkeeps γ x
  · cases x with
    | here => exact h spare env hkeeps hadv
    | there x => exact hadv γ x hx

theorem ref {x : Var Γ α} (h : sure α x) : (Rule.ref x).Advances sure :=
  fun _ _ _ hadv => hadv α x h

end Rule.Advances

theorem Rule.height_oneOf {Γ : List Type} {α : Type} {rules : List (Rule Γ α)} {k : Nat}
    (h : ∀ rule ∈ rules, rule.height ≤ k) : (Rule.oneOf rules).height ≤ k + 1 :=
  Nat.succ_le_succ (Finset.sup_le fun i _ => h _ (rules.get_mem i))

theorem Rule.grounded_oneOf {Γ : List Type} {α : Type} {rules : List (Rule Γ α)}
    {sure free : Marks Γ} (h : ∀ rule ∈ rules, rule.Grounded sure free) :
    (Rule.oneOf rules).Grounded sure free :=
  fun i => h _ (rules.get_mem i)

/-! ## The rules for operators -/

namespace Grammar
variable {Γ : List Type} {sure free : Marks Γ}

theorem advances_operatorRule (group : List Operator) :
    (Tree.operatorRule Token.symbol? group : Rule Γ Operator).Advances sure := by
  apply Rule.Advances.oneOf
  intro rule hrule
  obtain ⟨op, -, rfl⟩ := List.mem_map.mp hrule
  exact Rule.advances_token _ _ sure

theorem grounded_operatorRule (group : List Operator) :
    (Tree.operatorRule Token.symbol? group : Rule Γ Operator).Grounded sure free := by
  apply Rule.grounded_oneOf
  intro rule hrule
  obtain ⟨op, -, rfl⟩ := List.mem_map.mp hrule
  trivial

theorem height_operatorRule (group : List Operator) :
    (Tree.operatorRule Token.symbol? group : Rule Γ Operator).height ≤ 2 := by
  apply Rule.height_oneOf
  intro rule hrule
  obtain ⟨op, -, rfl⟩ := List.mem_map.mp hrule
  exact Nat.le_refl 1

section Levels
variable {sure free : Marks (Tree Expr :: Tree Expr :: Γ)} (level : Level)

theorem advances_tailRules :
    (Rule.oneOf (Tree.tailRules Token.symbol? level)).Advances sure := by
  apply Rule.Advances.oneOf
  intro rule hrule
  obtain ⟨a, -, rfl⟩ := mem_tailRules.mp hrule
  exact ((advances_operatorRule _).seq _).map _

/-- The right-hand sides of a level are behind an operator. -/
theorem grounded_tailRules :
    (Rule.oneOf (Tree.tailRules Token.symbol? level)).Grounded sure free := by
  apply Rule.grounded_oneOf
  intro rule hrule
  obtain ⟨a, -, rfl⟩ := mem_tailRules.mp hrule
  refine ⟨grounded_operatorRule _, ?_⟩
  cases a <;> exact .inr (advances_operatorRule _)

theorem height_tailRules : (Rule.oneOf (Tree.tailRules Token.symbol? level :
    List (Rule (Tree Expr :: Tree Expr :: Γ) (Tail Expr)))).height ≤ 5 := by
  apply Rule.height_oneOf
  intro rule hrule
  obtain ⟨a, -, rfl⟩ := mem_tailRules.mp hrule
  have hgroup := height_operatorRule (Γ := Tree Expr :: Tree Expr :: Γ) (level.group a)
  have hright : (rightOf a : Rule (Tree Expr :: Tree Expr :: Γ) (Tree Expr)).height = 1 := by
    cases a <;> rfl
  simp only [Tree.tailRule, Rule.height]
  omega

end Levels

/-- Every level reads a token, if what the tightest one reads does. -/
theorem advances_levelRules {operand : Rule Γ (Tree Expr)} (h : operand.Advances sure)
    (levels : List Level) : (Tree.levelRules Token.symbol? levels operand).Advances sure := by
  induction levels with
  | nil => exact h
  | cons level levels ih => exact .share ih (.fix (.chain (.ref trivial) level _))

theorem grounded_levelRules {operand : Rule Γ (Tree Expr)}
    (h : ∀ free, operand.Grounded sure free) (levels : List Level) (free : Marks Γ) :
    (Tree.levelRules Token.symbol? levels operand).Grounded sure free := by
  induction levels generalizing free with
  | nil => exact h free
  | cons level levels ih =>
    exact ⟨ih _, ih free, grounded_tailRules level, advances_tailRules level⟩

/-- A level is one step higher than the next tighter one, once that is as high as its own
tails. -/
theorem height_levelRules {operand : Rule Γ (Tree Expr)} {k : Nat} (hk : 7 ≤ k)
    (h : operand.height ≤ k) (levels : List Level) :
    (Tree.levelRules Token.symbol? levels operand).height ≤ levels.length + k := by
  induction levels with
  | nil => simpa [Tree.levelRules] using h
  | cons level levels ih =>
    have htails := height_tailRules (Γ := Γ) level
    show max (Tree.levelRules Token.symbol? levels operand).height _ + 1 ≤ _
    simp only [Rule.height, List.length_cons]
    omega

/-! ## The other rules of the grammar -/

section Expressions
variable (table : OperatorTable) (x : Var Γ Expr)

theorem advances_word : (word : Rule Γ String).Advances sure :=
  (Rule.advances_token _ _ sure).filter _ _

theorem advances_symbol (text : String) : (Rule.symbol text : Rule Γ String).Advances sure :=
  Rule.advances_token _ _ sure

theorem advances_keyword (text : String) : (Rule.keyword text : Rule Γ String).Advances sure :=
  Rule.advances_token _ _ sure

theorem advances_name : (name table : Rule Γ Name).Advances sure :=
  .label ((advances_word.map _).or (((advances_symbol "(").between _ _).map _)) _

/-- A term starts with a token, whatever stands in its parentheses. -/
theorem advances_term (expression : Rule Γ Expr) : (term table expression).Advances sure := by
  refine .label (.oneOf ?_) _
  simp only [List.forall_mem_cons]
  exact ⟨(advances_name table).map _, (Rule.advances_token _ _ sure).map _,
    (advances_symbol "(").between _ _, nofun⟩

theorem advances_call {operand : Rule Γ Expr} (h : operand.Advances sure) :
    (call operand).Advances sure :=
  h.many1.map _

theorem advances_lambda (expression : Rule Γ Expr) : (lambda expression).Advances sure :=
  (advances_symbol "\\").keepRight _

theorem advances_statement (expression : Rule Γ Expr) :
    (statement table expression).Advances sure :=
  .label ((advances_keyword _).keepRight _) _

theorem grounded_term : (term table (.ref x)).Grounded sure free := by
  refine Rule.grounded_oneOf ?_
  simp only [List.forall_mem_cons]
  exact ⟨⟨trivial, ⟨trivial, trivial⟩, trivial⟩, trivial,
    ⟨⟨trivial, .inr (advances_symbol "(")⟩, trivial⟩, nofun⟩

theorem grounded_call : (call (term table (.ref x))).Grounded sure free :=
  ⟨grounded_term table x, advances_term table _⟩

theorem grounded_lambda : (lambda (.ref x)).Grounded sure free :=
  ⟨trivial, trivial, trivial, .inr (advances_symbol "->")⟩

/-- Under one more rule, a call is the call that refers past it. -/
theorem weaken_call {γ : Type} : (call (term table (.ref x))).weaken =
    call (term table (.ref (x.there : Var (γ :: Γ) Expr))) := by
  refine congrArg (fun terms : Fin 3 → Rule (γ :: Γ) Expr =>
    call (.label "expression" (.firstOf terms))) (funext fun i => ?_)
  match i with
  | 0 => rfl
  | 1 => rfl
  | 2 => rfl

/-- What the tightest level reads: a call, or an operation in parentheses. -/
def operand : Rule (Tree Expr :: Γ) (Tree Expr) :=
  Tree.operandRule (some .parentheses) (call (term table (.ref x)))

theorem operand_eq : operand table x = .orGroup ((call (term table (.ref x.there))).map .value)
    (.between ((Rule.symbol "(").map fun _ => ()) ((Rule.symbol ")").map fun _ => ())
      (.ref .here)) := by
  rw [← weaken_call]
  rfl

theorem advances_operand {sure : Marks (Tree Expr :: Γ)} : (operand table x).Advances sure := by
  rw [operand_eq]
  apply Rule.Advances.orGroup
  · exact (advances_call (advances_term table _)).map _
  · exact ((advances_symbol "(").map _).between _ _

theorem grounded_operand {sure free : Marks (Tree Expr :: Γ)} :
    (operand table x).Grounded sure free := by
  rw [operand_eq]
  exact ⟨grounded_call table x.there,
    ⟨⟨trivial, .inr ((advances_symbol "(").map _)⟩, trivial⟩⟩

theorem height_term : (term table (.ref x)).height ≤ 12 := by
  refine Nat.succ_le_succ (Rule.height_oneOf ?_)
  simp only [List.forall_mem_cons]
  refine ⟨Nat.le_refl 10, ?_, ?_, nofun⟩
  all_goals exact Nat.le_of_ble_eq_true rfl

theorem height_operand : (operand table x).height ≤ 16 := by
  have hterm := height_term table (x.there : Var (Tree Expr :: Γ) Expr)
  rw [operand_eq]
  show max ((term table (.ref x.there)).height + 3) 6 + 1 ≤ 16
  omega

theorem advances_operation : (operation table (call (term table (.ref x)))).Advances sure :=
  .map (.fix (advances_levelRules (advances_operand table x) _)) _

theorem grounded_operation :
    (operation table (call (term table (.ref x)))).Grounded sure free :=
  grounded_levelRules (fun _ => grounded_operand table x) _ _

theorem advances_expression : (expression table : Rule Γ Expr).Advances sure :=
  .fix ((advances_lambda _).or (advances_operation table .here))

theorem grounded_expression : (expression table : Rule Γ Expr).Grounded sure free :=
  ⟨grounded_lambda .here, grounded_operation table .here⟩

theorem height_expression :
    (expression table : Rule Γ Expr).height ≤ table.levels.length + 20 := by
  have hlevels : (Tree.levelRules Token.symbol? table.levels
      (operand table (.here : Var (Expr :: Γ) Expr))).height ≤ table.levels.length + 16 :=
    height_levelRules (by omega) (height_operand table _) table.levels
  show max 8 ((Tree.levelRules Token.symbol? table.levels (operand table .here)).height + 2) + 2 ≤ _
  omega

theorem grounded_statement {expression : Rule Γ Expr}
    (h : ∀ free, expression.Grounded sure free) (free : Marks Γ) :
    (statement table expression).Grounded sure free :=
  ⟨trivial, ⟨⟨trivial, ⟨trivial, trivial⟩, trivial⟩, trivial⟩, h _⟩

theorem grounded_statements {expression : Rule Γ Expr}
    (h : ∀ free, expression.Grounded sure free) :
    (Rule.sepBy (statement table expression) .newline).Grounded sure free :=
  ⟨grounded_statement table h _, trivial, (Rule.advances_token _ _ sure).seq _⟩

theorem grounded_program : (program table : Rule Γ Program).Grounded sure free :=
  grounded_statements table fun _ => grounded_expression table

theorem height_program : (program table : Rule Γ Program).height ≤ table.levels.length + 29 := by
  have hexpression := height_expression (Γ := Γ) table
  show max (max 1 (max 11 (expression table : Rule Γ Expr).height + 3) + 3) 1 + 3 ≤ _
  omega

end Expressions

end Grammar

/-! ## Parsing -/

/-- **The runs of a productive rule end**, however many turns are granted, and the strict
run with fuel for its height and for each token is the same. -/
theorem Rule.Productive.ends {α : Type} {rule : Rule [] α} (h : rule.Productive) {c : Cursor}
    {fuel : Nat} (hfuel : rule.height + c.remaining ≤ fuel) (spare : Nat) :
    rule.eval spare .nil c ≠ .stalled ∧ rule.spend fuel .nil c = rule.eval spare .nil c := by
  constructor
  · exact h.haltsWithin .nil spare c (Nat.le_refl c.remaining)
  · exact h.spend_eq_eval .nil (.refl .nil _ _) hfuel spare c (Nat.le_refl _)

namespace Language

/-- Fuel for parsing tokens: a unit for each token and each level, and a few more. -/
def fuel (L : Language) (tokens : List Token) : Nat :=
  tokens.length + L.table.levels.length + 29

theorem productive_program (L : Language) : L.program.Productive :=
  Grammar.grounded_program L.table

theorem productive_expression (L : Language) : L.expression.Productive :=
  Grammar.grounded_expression L.table

theorem height_program_le (L : Language) (tokens : List Token) (extra : Nat) :
    L.program.height + (Cursor.start tokens).remaining ≤ L.fuel tokens + extra := by
  have hheight := Grammar.height_program (Γ := []) L.table
  show (Grammar.program L.table).height + tokens.length ≤ _
  unfold fuel
  omega

theorem height_expression_le (L : Language) (tokens : List Token) (extra : Nat) :
    L.expression.height + (Cursor.start tokens).remaining ≤ L.fuel tokens + extra := by
  have hheight := Grammar.height_expression (Γ := []) L.table
  show (Grammar.expression L.table).height + 1 + tokens.length ≤ _
  unfold fuel
  omega

/-- **Parsing ends**, for every valid table and all tokens.

Every value of a term, of a call, of each precedence level, of an expression and of a
statement has read a token, whatever parsers the rules in scope stand for.  The strict run
on fuel, in which each turn of a loop has to read a token and each recursive rule has to
be entered where fewer tokens are left than around it, does not run out, with a unit for
each token and each level and a few more.  It is the run of the rule, so neither more fuel
nor more turns change the result. -/
theorem parsing_ends (L : Language) (tokens : List Token) :
    (∀ (Γ : List Type) (x : Var Γ Expr) (sure : Marks Γ),
      (Grammar.term L.table (.ref x)).Advances sure ∧
      (Grammar.call (Grammar.term L.table (.ref x))).Advances sure ∧
      (Grammar.expression L.table : Rule Γ Expr).Advances sure ∧
      (Grammar.statement L.table (Grammar.expression L.table) : Rule Γ Binding).Advances sure) ∧
    (∀ (Γ : List Type) (x : Var Γ Expr) (sure : Marks (Tree Expr :: Γ)) (levels : List Level),
      (Tree.levelRules Token.symbol? levels (Grammar.operand L.table x)).Advances sure) ∧
    (∀ extra spare, L.program.eval spare .nil (.start tokens) ≠ .stalled ∧
      L.program.spend (L.fuel tokens + extra) .nil (.start tokens) =
        L.program.eval spare .nil (.start tokens)) ∧
    (∀ extra spare, L.expression.eval spare .nil (.start tokens) ≠ .stalled ∧
      L.expression.spend (L.fuel tokens + extra) .nil (.start tokens) =
        L.expression.eval spare .nil (.start tokens)) := by
  refine ⟨fun Γ x sure => ⟨?_, ?_, ?_, ?_⟩, fun Γ x sure levels => ?_, fun extra spare => ?_,
    fun extra spare => ?_⟩
  · exact Grammar.advances_term L.table _
  · exact Grammar.advances_call (Grammar.advances_term L.table _)
  · exact Grammar.advances_expression L.table
  · exact Grammar.advances_statement L.table _
  · exact Grammar.advances_levelRules (Grammar.advances_operand L.table x) levels
  · exact L.productive_program.ends (L.height_program_le tokens extra) spare
  · exact L.productive_expression.ends (L.height_expression_le tokens extra) spare

end Language

end Fixity
