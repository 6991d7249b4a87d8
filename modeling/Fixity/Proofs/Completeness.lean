import Fixity.Proofs.Acceptance
import Fixity.Proofs.Levels
import Fixity.Proofs.Soundness

/-! # What the parsers of the grammar find

Every rule of the grammar accepts all the phrases of its part of speech.  Terms can
stand in front of anything.  What reads operands and operators goes on as long as it
can, so it accepts a phrase only where the next token neither starts a term nor is an
operator of its levels (`Stops`); behind a phrase that is part of a larger one this
holds, because the symbols of a valid table are distinct and no punctuation.
-/
namespace Fixity

open OperatorTable (Level levelAt mem_select levelsAt_cons)

namespace Rule
variable {Γ : List Type} {spare : Nat} {env : Env Γ} {r rest : List Token}

theorem accepts_symbol (text : String) :
    ((symbol text : Rule Γ String).eval spare env).Accepts [.symbol text] r fun _ => True :=
  .token _ _ (if_pos rfl) trivial

theorem accepts_keyword (text : String) :
    ((keyword text : Rule Γ String).eval spare env).Accepts [.word text] r fun _ => True :=
  .token _ _ (if_pos rfl) trivial

theorem accepts_newline :
    ((newline : Rule Γ Unit).eval spare env).Accepts [.newline] r fun _ => True :=
  .token _ _ (if_pos rfl) trivial

theorem declines_symbol {text : String} (h : rest.head? ≠ some (.symbol text)) :
    ((symbol text : Rule Γ String).eval spare env).Declines rest :=
  .exactly text _ h

theorem declines_keyword {text : String} (h : rest.head? ≠ some (.word text)) :
    ((keyword text : Rule Γ String).eval spare env).Declines rest :=
  .exactly text _ h

theorem declines_newline (h : rest.head? ≠ some .newline) :
    ((newline : Rule Γ Unit).eval spare env).Declines rest :=
  .exactly () _ h

end Rule

namespace Grammar
variable {Γ : List Type} {table : OperatorTable} {spare n : Nat} {env : Env Γ}
  {ts us r rest : List Token}

/-! ## First tokens and what stops an operation -/

/-- A term can start with the token. -/
def StartsTerm : Token → Prop
  | .word w => w ≠ "let"
  | .symbol s => s = "("
  | .integer _ => True
  | .string _ => True
  | .newline => False

/-- **The tokens that phrases start with.** -/
theorem Derives.head {phrase : Phrase} (h : Derives table phrase ts) :
    match phrase with
    | .name _ | .term _ | .operation .. => ∃ t, ts.head? = some t ∧ StartsTerm t
    | .expression _ => ∃ t, ts.head? = some t ∧ (StartsTerm t ∨ t = .symbol "\\")
    | .tails k _ _ _ => ∀ t, ts.head? = some t →
        ∃ op ∈ (levelAt table.operators k).operators, t = .symbol op.symbol
    | _ => True := by
  induction h with
  | word hw => exact ⟨_, rfl, hw⟩
  | enclosed hop => exact ⟨_, rfl, rfl⟩
  | name h ih => exact ih
  | integer => exact ⟨_, rfl, trivial⟩
  | string => exact ⟨_, rfl, trivial⟩
  | group h ih => exact ⟨_, rfl, rfl⟩
  | single h ih => exact ih
  | call h hs ih ih' | level h hs ih ih' =>
    obtain ⟨t, ht, hstart⟩ := ih
    exact ⟨t, by rw [List.head?_append, ht, Option.some_or], hstart⟩
  | noTail =>
    intro t ht
    cases ht
  | leftTail hop h hs =>
    intro t ht
    cases ht
    exact ⟨_, Level.mem_operators_of_mem_group (a := .left) (mem_select.mpr hop), rfl⟩
  | rightTail hop h =>
    intro t ht
    cases ht
    exact ⟨_, Level.mem_operators_of_mem_group (a := .right) (mem_select.mpr hop), rfl⟩
  | nonAssocTail hop h =>
    intro t ht
    cases ht
    exact ⟨_, Level.mem_operators_of_mem_group (a := .nonAssoc) (mem_select.mpr hop), rfl⟩
  | lambda hw h => exact ⟨_, rfl, Or.inr rfl⟩
  | operation _ h ih =>
    obtain ⟨t, ht, hstart⟩ := ih
    exact ⟨t, ht, Or.inl hstart⟩
  | _ => trivial

/-- **What stops an operation**: the end, or a token that neither starts a term nor is
an operator of the levels. -/
def Stops (levels : List Level) (rest : List Token) : Prop :=
  ∀ t, rest.head? = some t →
    ¬ StartsTerm t ∧ ∀ op ∈ levels.flatMap Level.operators, t ≠ .symbol op.symbol

theorem stops_nil (levels : List Level) : Stops levels [] := by
  intro t ht
  cases ht

theorem stops_newline (levels : List Level) : Stops levels (.newline :: r) := by
  intro t ht
  cases ht
  exact ⟨id, by simp⟩

theorem stops_close {levels : List Level} (h : Level.Distinct levels) :
    Stops levels (.symbol ")" :: r) := by
  intro t ht
  cases ht
  refine ⟨by simp [StartsTerm], fun op hop heq => h.notMem_punctuation op hop ?_⟩
  rw [← Token.symbol.inj heq]
  simp [OperatorTable.punctuation]

theorem Stops.tail {level : Level} {tighter : List Level} (h : Stops (level :: tighter) rest) :
    Stops tighter rest := by
  intro t ht
  obtain ⟨hs, hop⟩ := h t ht
  refine ⟨hs, fun op hmem => hop op ?_⟩
  rw [List.flatMap_cons]
  exact List.mem_append_right _ hmem

/-- What follows an operand stops it, be it a tail of the level or what stops the
level. -/
theorem Derives.stops_tails {k : Int32} {tighter : List Int32} {left e : Expr}
    (h : Derives table (.tails k tighter left e) us)
    (hd : Level.Distinct (table.levelsAt (k :: tighter)))
    (hr : Stops (table.levelsAt (k :: tighter)) r) : Stops (table.levelsAt tighter) (us ++ r) := by
  intro t ht
  cases hus : us with
  | nil =>
    rw [hus] at ht
    exact hr.tail t ht
  | cons t' us' =>
    -- A tail starts with an operator of the level, which no tighter level knows.
    rw [hus] at ht
    cases ht
    obtain ⟨op, hop, rfl⟩ := h.head t (by rw [hus]; rfl)
    refine ⟨fun hstart => hd.notMem_punctuation op ?_ ?_, fun other hother heq => ?_⟩
    · rw [levelsAt_cons, List.flatMap_cons]
      exact List.mem_append_left _ hop
    · rw [show op.symbol = "(" from hstart]
      simp [OperatorTable.punctuation]
    · exact hd.apart op hop other hother (Token.symbol.inj heq)

/-! ## Names and terms -/

theorem accepts_word {w : String} (hw : w ≠ "let") :
    ((word : Rule Γ String).eval spare env).Accepts [.word w] r (· = w) := by
  refine .filter (.token Token.word? _ rfl ⟨rfl, ?_⟩)
  have hk : ¬ isKeyword w = true := fun h => hw ((isKeyword_iff w).mp h)
  simp [hk]

theorem declines_word (h : ∀ w, w ≠ "let" → rest.head? ≠ some (.word w)) :
    ((word : Rule Γ String).eval spare env).Declines rest := by
  by_cases hlet : rest.head? = some (.word "let")
  · obtain ⟨r, rfl⟩ := List.head?_eq_some_iff.mp hlet
    exact .filter_of_accepts (.token Token.word? _ rfl (by decide))
  · refine .filter (.token _ _ fun t ht => ?_)
    cases hw : t.word? with
    | none => rfl
    | some w =>
      rw [Token.word?_eq_some.mp hw] at ht
      by_cases hlw : w = "let"
      · rw [hlw] at ht
        exact absurd ht hlet
      · exact absurd ht (h w hlw)

theorem accepts_name {x : Name} (h : Derives table (.name x) ts) :
    ((name table : Rule Γ Name).eval spare env).Accepts ts r (· = x) := by
  refine .label _ ?_
  cases h with
  | word hw => exact .or_first (.map ((accepts_word hw).mono fun v hv => congrArg Name.word hv))
  | @enclosed op hop =>
    refine .or_second (.map (declines_word (by simp))) (.map ?_)
    exact .between [.symbol op.symbol] (Rule.accepts_symbol "(")
      (.filter (.token Token.symbol? _ rfl ⟨rfl, OperatorTable.declares_of_mem hop⟩))
      (Rule.accepts_symbol ")")

/-- A name declines a parenthesis that does not enclose an operator. -/
theorem declines_name (hw : ∀ w, w ≠ "let" → rest.head? ≠ some (.word w))
    (hop : ∀ s r, table.declares s = true → rest ≠ .symbol "(" :: .symbol s :: r) :
    ((name table : Rule Γ Name).eval spare env).Declines rest := by
  refine .label _ (.or (.map (declines_word hw)) (.map (.map (.seq_first (.map ?_)))))
  by_cases hopen : rest.head? = some (.symbol "(")
  · obtain ⟨r, rfl⟩ := List.head?_eq_some_iff.mp hopen
    refine .seq_second (Rule.accepts_symbol "(") ?_
    by_cases hs : ∃ s r', r = .symbol s :: r'
    · obtain ⟨s, r', rfl⟩ := hs
      refine .filter_of_accepts (.token Token.symbol? _ rfl ?_)
      exact Bool.eq_false_iff.mpr fun hd => hop s r' hd rfl
    · refine .filter (.token _ _ fun t ht => ?_)
      obtain ⟨r', rfl⟩ := List.head?_eq_some_iff.mp ht
      cases hts : t.symbol? with
      | none => rfl
      | some s => exact absurd ⟨s, r', by rw [Token.symbol?_eq_some.mp hts]⟩ hs
  · exact .seq_first (Rule.declines_symbol hopen)

theorem declines_literal (h : ∀ t, rest.head? = some t → Literal.ofToken? t = none) :
    ((literal : Rule Γ Literal).eval spare env).Declines rest := .token _ _ h

/-- An expression in parentheses does not start like an operator in parentheses. -/
theorem Derives.not_enclosed {e : Expr} {s : String} (h : Derives table (.expression e) ts)
    (hv : table.Valid) (hs : table.declares s = true) :
    (.symbol "(" :: (ts ++ rest) : List Token) ≠ .symbol "(" :: .symbol s :: r := by
  intro heq
  obtain ⟨t, ht, hstart⟩ := h.head
  obtain ⟨us, rfl⟩ := List.head?_eq_some_iff.mp ht
  obtain ⟨rfl, -⟩ := List.cons.inj (List.cons.inj heq).2
  refine hv.notMem_punctuation hs ?_
  rcases hstart with hstart | hstart
  · rw [show s = "(" from hstart]
    simp [OperatorTable.punctuation]
  · rw [Token.symbol.inj hstart]
    simp [OperatorTable.punctuation]

/-- A term, where the expression inside parentheses is found with fewer tokens left. -/
theorem finds_term {expression : Rule Γ Expr} (hv : table.Valid)
    (h : (expression.eval spare env).Finds id (fun ts e => Derives table (.expression e) ts)
      (Stops table.levels) (n - 1)) :
    ((term table expression).eval spare env).Finds id (fun ts e => Derives table (.term e) ts)
      (fun _ => True) n := by
  intro ts e r hts _ hlt
  show (Parser.label _ ((Rule.oneOf _).eval spare env)).Accepts ts r _
  rw [Rule.eval_oneOf]
  refine .label _ (.firstOf ?_)
  cases hts with
  | name hx => exact .here (.map ((accepts_name hx).mono fun v hv => congrArg Expr.name hv))
  | integer =>
    refine .there (.map (declines_name (by simp) (by simp))) (.here (.map ?_))
    exact .token Literal.ofToken? _ rfl rfl
  | string =>
    refine .there (.map (declines_name (by simp) (by simp))) (.here (.map ?_))
    exact .token Literal.ofToken? _ rfl rfl
  | @group _ ts he =>
    -- The rule for names sees the parenthesis first, but finds no operator behind it.
    refine .there (.map (declines_name (by simp) fun s r' hs => ?_))
      (.there (.map (declines_literal (by simp [Literal.ofToken?]))) (.here ?_))
    · simpa using he.not_enclosed hv hs
    · refine .between ts (Rule.accepts_symbol "(") ?_ (Rule.accepts_symbol ")")
      refine h ts e _ he (stops_close hv.distinct) ?_
      simp at hlt ⊢
      omega

theorem declines_term {expression : Rule Γ Expr} (h : ∀ t, rest.head? = some t → ¬ StartsTerm t) :
    ((term table expression).eval spare env).Declines rest := by
  show (Parser.label _ ((Rule.oneOf _).eval spare env)).Declines rest
  rw [Rule.eval_oneOf]
  refine .label _ (.firstOf ?_)
  have hopen : rest.head? ≠ some (.symbol "(") := fun ht => h _ ht rfl
  simp only [List.map_cons, List.map_nil, List.forall_mem_cons]
  refine ⟨.map (declines_name (fun w hw ht => h _ ht hw) ?_), .map (declines_literal ?_),
    .map (.seq_first (.map (.seq_first (Rule.declines_symbol hopen)))), by simp⟩
  · rintro s r - rfl
    exact hopen rfl
  · intro t ht
    cases t with
    | integer | string => exact absurd trivial (h _ ht)
    | _ => rfl

/-- The loop over the arguments of a call. -/
theorem accepts_arguments {term : Parser Expr} {es : List Expr}
    (h : term.Finds id (fun ts e => Derives table (.term e) ts) (fun _ => True) n)
    (hend : term.Declines r) (hus : Derives table (.arguments es) us) (hlt : (us ++ r).length < n)
    {turns : Nat} (hturns : (us ++ r).length < turns) :
    (Parser.collect term turns).Accepts us r (· = es) := by
  induction es generalizing us turns with
  | nil =>
    cases hus
    obtain ⟨turns, rfl⟩ : ∃ k, turns = k + 1 := ⟨turns - 1, by omega⟩
    exact .collect_nil hend
  | cons e es ih =>
    cases hus with
    | @argument _ _ ts us he hs =>
      -- An argument is not empty, so one turn is enough for it.
      have hne := List.length_pos_iff.mpr he.ne_nil
      rw [List.append_assoc, List.length_append] at hlt hturns
      obtain ⟨turns, rfl⟩ : ∃ k, turns = k + 1 := ⟨turns - 1, by omega⟩
      refine .collect_cons ts (h ts e _ he trivial ?_) (ih hs (by omega) (by omega))
      rw [List.length_append]
      exact hlt

/-- A call, in front of what starts no term. -/
theorem finds_call {term : Rule Γ Expr}
    (h : (term.eval spare env).Finds id (fun ts e => Derives table (.term e) ts)
      (fun _ => True) n)
    (hdecl : ∀ rest, Stops [] rest → (term.eval spare env).Declines rest) :
    ((call term).eval spare env).Finds id (fun ts e => Derives table (.operation [] e) ts)
      (Stops []) n := by
  intro ts e r hts hr hlt
  obtain ⟨first, others, us, vs, rfl, rfl, hfirst, hothers⟩ := derives_call_iff.mp hts
  rw [List.append_assoc] at hlt
  have hlt' : (vs ++ r).length < n := by
    rw [List.length_append] at hlt
    omega
  refine .map ((Parser.Accepts.many1 spare (h us first _ hfirst trivial hlt)
    (.many spare fun _ => accepts_arguments h (hdecl r hr) hothers hlt')).mono ?_)
  rintro _ rfl
  rfl

/-! ## Operations -/

theorem accepts_operatorRule {group : List Operator} {op : Operator} (h : op ∈ group) :
    ((Tree.operatorRule Token.symbol? group : Rule Γ Operator).eval spare env).Accepts
      [.symbol op.symbol] r fun op' => op' ∈ group ∧ op'.symbol = op.symbol := by
  rw [Tree.operatorRule, Rule.eval_oneOf]
  refine .firstOf (.of_forall ?_ ⟨_, List.mem_map_of_mem (List.mem_map_of_mem h),
    .token _ _ (if_pos rfl) ⟨h, rfl⟩⟩)
  simp only [List.mem_map, forall_exists_index, and_imp]
  rintro _ _ other hother rfl rfl
  by_cases hs : op.symbol = other.symbol
  · exact .inl (.token _ _ (if_pos (congrArg some hs)) ⟨hother, hs.symm⟩)
  · refine .inr (.token _ _ fun t ht => ?_)
    cases ht
    exact if_neg fun heq => hs (Option.some.inj heq)

theorem declines_operatorRule {group : List Operator}
    (h : ∀ op ∈ group, rest.head? ≠ some (.symbol op.symbol)) :
    ((Tree.operatorRule Token.symbol? group : Rule Γ Operator).eval spare env).Declines rest := by
  rw [Tree.operatorRule, Rule.eval_oneOf]
  refine .firstOf ?_
  simp only [List.mem_map, forall_exists_index, and_imp]
  rintro _ _ op hop rfl rfl
  refine .token _ _ fun t ht => if_neg fun hs => h op hop ?_
  rw [ht, Token.symbol?_eq_some.mp hs]

section Tails
variable {α : Type} {level : Level} {this next : Parser (Tree α)}

/-- No rule for the tails of a level takes anything but its operators. -/
theorem declines_tailRules (h : ∀ op ∈ level.operators, rest.head? ≠ some (.symbol op.symbol)) :
    ((Rule.oneOf (Tree.tailRules Token.symbol? level)).eval spare
      (.cons this (.cons next env))).Declines rest := by
  rw [Rule.eval_oneOf]
  refine .firstOf ?_
  simp only [List.mem_map, forall_exists_index, and_imp]
  rintro _ rule hrule rfl
  obtain ⟨a, -, rfl⟩ := mem_tailRules.mp hrule
  refine .map (.seq_first (declines_operatorRule fun op hop => h op ?_))
  exact Level.mem_operators_of_mem_group hop

/-- An operator and its right-hand side: the rules for other associativities do not know
the operator. -/
theorem accepts_tailRules {a : Associativity} {op : Operator} {good : Tree α → Prop}
    (hd : (level.operators.map (·.symbol)).Nodup) (hop : op ∈ level.group a)
    (h : ((rightOf a).eval spare (.cons this (.cons next env))).Accepts ts r good) :
    ((Rule.oneOf (Tree.tailRules Token.symbol? level)).eval spare
      (.cons this (.cons next env))).Accepts (.symbol op.symbol :: ts) r
      fun v => ∃ op' right, v = tailOf a op' right ∧
        (op' ∈ level.group a ∧ op'.symbol = op.symbol) ∧ good right := by
  rw [Rule.eval_oneOf]
  have hown : ((Tree.tailRule Token.symbol? (tailOf a) (level.group a) (rightOf a)).eval spare
      (.cons this (.cons next env))).Accepts (.symbol op.symbol :: ts) r
      fun v => ∃ op' right, v = tailOf a op' right ∧
        (op' ∈ level.group a ∧ op'.symbol = op.symbol) ∧ good right := by
    refine .map (.seq_cons (accepts_operatorRule hop) h ?_)
    intro op' right hs hg
    exact ⟨op', right, rfl, hs, hg⟩
  refine .firstOf (.of_forall ?_ ⟨_, List.mem_map_of_mem (mem_tailRules.mpr ⟨a, ?_, rfl⟩), hown⟩)
  · simp only [List.mem_map, forall_exists_index, and_imp]
    rintro _ rule hrule rfl
    obtain ⟨b, -, rfl⟩ := mem_tailRules.mp hrule
    by_cases hab : a = b
    · subst hab
      exact Or.inl hown
    · -- The operator is none of another associativity, so that rule leaves it alone.
      refine Or.inr (.map (.seq_first (declines_operatorRule fun other hother heq => ?_)))
      exact Level.symbol_ne_of_group_ne hd hab hop hother (Token.symbol.inj (Option.some.inj heq))
  · exact List.ne_nil_of_mem hop

/-- An operator without its right-hand side. -/
theorem declines_tailRules_right {a : Associativity} {op : Operator}
    (hd : (level.operators.map (·.symbol)).Nodup) (hop : op ∈ level.group a)
    (h : ((rightOf a).eval spare (.cons this (.cons next env))).Declines r) :
    ((Rule.oneOf (Tree.tailRules Token.symbol? level)).eval spare
      (.cons this (.cons next env))).Declines (.symbol op.symbol :: r) := by
  rw [Rule.eval_oneOf]
  refine .firstOf ?_
  simp only [List.mem_map, forall_exists_index, and_imp]
  rintro _ rule hrule rfl
  obtain ⟨b, -, rfl⟩ := mem_tailRules.mp hrule
  by_cases hab : a = b
  · subst hab
    exact .map (.seq_second (accepts_operatorRule hop) h)
  · refine .map (.seq_first (declines_operatorRule fun other hother heq => ?_))
    exact Level.symbol_ne_of_group_ne hd hab hop hother (Token.symbol.inj (Option.some.inj heq))

end Tails

section Levels
variable {k : Int32} {tighter : List Int32} {this next : Parser (Tree Expr)}

/-- A tail that ends its level: an operator that does not group to the left, and its
right-hand side. -/
theorem accepts_lastTail {level : Level} {a : Associativity} {op : Operator} {right : Expr}
    {turns : Nat} {tree : Tree Expr} (ha : ∀ op (t : Tree Expr), tailOf a op t = .last op t)
    (hd : (level.operators.map (·.symbol)).Nodup) (hop : op ∈ level.group a)
    (h : ((rightOf a).eval spare (.cons this (.cons next env))).Accepts ts r
      (·.toExpr = right)) :
    (Parser.joinTails ((Rule.oneOf (Tree.tailRules Token.symbol? level)).eval spare
      (.cons this (.cons next env))) (turns + 1) tree).Accepts (.symbol op.symbol :: ts) r
      (·.toExpr = .call (.name (.operator op.symbol)) [tree.toExpr, right]) := by
  refine .joinTails_last ((accepts_tailRules hd hop h).mono ?_)
  rintro _ ⟨op', right', rfl, ⟨-, hs⟩, rfl⟩
  exact ⟨op', right', ha op' right', by rw [Tree.toExpr, Expr.operation, hs]⟩

/-- **The tails of a level** behind an operand that has been read. -/
theorem accepts_joinTails {m : Nat} (hd : Level.Distinct (table.levelsAt (k :: tighter)))
    (hthis : this.Finds Tree.toExpr (fun ts e => Derives table (.operation (k :: tighter) e) ts)
      (Stops (table.levelsAt (k :: tighter))) m)
    (hnext : next.Finds Tree.toExpr (fun ts e => Derives table (.operation tighter e) ts)
      (Stops (table.levelsAt tighter)) m)
    (hr : Stops (table.levelsAt (k :: tighter)) r) {turns : Nat} {tree : Tree Expr} {e : Expr}
    (h : Derives table (.tails k tighter tree.toExpr e) us)
    (hm : (us ++ r).length ≤ m) (hturns : (us ++ r).length < turns) :
    (Parser.joinTails ((Rule.oneOf (Tree.tailRules Token.symbol?
      (levelAt table.operators k))).eval spare (.cons this (.cons next env))) turns tree).Accepts
      us r (·.toExpr = e) := by
  induction turns generalizing us tree with
  | zero => exact absurd hturns (Nat.not_lt_zero _)
  | succ turns ih =>
    cases h with
    | noTail =>
      refine .joinTails_nil (declines_tailRules fun op hop ht => ?_) rfl
      refine (hr _ ht).2 op ?_ rfl
      rw [levelsAt_cons, List.flatMap_cons]
      exact List.mem_append_left _ hop
    | @leftTail _ _ _ right _ op ts us hop hright hs =>
      have hlen : (ts ++ (us ++ r)).length < m := by
        simp only [List.cons_append, List.append_assoc, List.length_cons] at hm
        omega
      have hlen' : (us ++ r).length < turns ∧ (us ++ r).length ≤ m := by
        simp only [List.length_append, List.length_cons] at hlen hturns ⊢
        omega
      have hown : ((rightOf .left).eval spare (.cons this (.cons next env))).Accepts ts (us ++ r)
          (·.toExpr = right) := hnext ts right _ hright (hs.stops_tails hd hr) hlen
      refine .joinTails_more (.symbol op.symbol :: ts)
        (accepts_tailRules hd.nodup_level (mem_select.mpr hop) hown) ?_
      rintro op' right' ⟨⟨-, hs'⟩, rfl⟩
      refine ih ?_ hlen'.2 hlen'.1
      rw [Tree.toExpr, hs']
      exact hs
    | @rightTail _ _ _ right op ts hop hright =>
      have hlen : (ts ++ r).length < m := by
        simp only [List.cons_append, List.length_cons] at hm
        omega
      exact accepts_lastTail (a := .right) (fun _ _ => rfl) hd.nodup_level (mem_select.mpr hop)
        (hthis ts right r hright hr hlen)
    | @nonAssocTail _ _ _ right op ts hop hright =>
      have hlen : (ts ++ r).length < m := by
        simp only [List.cons_append, List.length_cons] at hm
        omega
      exact accepts_lastTail (a := .nonAssoc) (fun _ _ => rfl) hd.nodup_level
        (mem_select.mpr hop) (hnext ts right r hright hr.tail hlen)

/-- **A level** over the tighter ones. -/
theorem finds_levelRule {tight : Rule Γ (Tree Expr)}
    (hd : Level.Distinct (table.levelsAt (k :: tighter)))
    (h : (tight.eval spare env).Finds Tree.toExpr
      (fun ts e => Derives table (.operation tighter e) ts) (Stops (table.levelsAt tighter)) n) :
    ((Tree.levelRule Token.symbol? (levelAt table.operators k) tight).eval spare env).Finds
      Tree.toExpr (fun ts e => Derives table (.operation (k :: tighter) e) ts)
      (Stops (table.levelsAt (k :: tighter))) n := by
  refine Parser.Finds.fix (fun m this hm hthis => ?_) spare
  intro ts e r hts hr hlt
  cases hts with
  | @level _ _ left _ ts us hleft hs =>
    rw [List.append_assoc] at hlt
    have hlen : (us ++ r).length ≤ m := by
      have := List.length_pos_iff.mpr hleft.ne_nil
      rw [List.length_append] at hlt
      omega
    refine .chain spare (h ts left _ hleft (hs.stops_tails hd hr) (by omega)) ?_
    rintro tree turns rfl hturns
    exact accepts_joinTails hd hthis (h.of_le (Nat.le_of_lt hm)) hr hs hlen hturns

theorem finds_levelRules {ks : List Int32} {operand : Rule Γ (Tree Expr)}
    (hd : Level.Distinct (table.levelsAt ks))
    (h : (operand.eval spare env).Finds Tree.toExpr
      (fun ts e => Derives table (.operation [] e) ts) (Stops []) n) :
    ((Tree.levelRules Token.symbol? (table.levelsAt ks) operand).eval spare env).Finds Tree.toExpr
      (fun ts e => Derives table (.operation ks e) ts) (Stops (table.levelsAt ks)) n := by
  induction ks with
  | nil => exact h
  | cons k tighter ih => exact finds_levelRule hd (ih hd.tail)

end Levels

/-- **Operands and operators.**  The operands hold the groups in parentheses, so the
rule for groups is not needed. -/
theorem finds_operation {operand : Rule Γ Expr} (hv : table.Valid)
    (h : (operand.eval spare env).Finds id (fun ts e => Derives table (.operation [] e) ts)
      (Stops []) n) :
    ((operation table operand).eval spare env).Finds id
      (fun ts e => Derives table (.operation table.precedences e) ts) (Stops table.levels) n := by
  have htree : ((Tree.rule Token.symbol? table (some .parentheses) operand).eval spare env).Finds
      Tree.toExpr (fun ts e => Derives table (.operation table.precedences e) ts)
      (Stops table.levels) n := by
    refine Parser.Finds.fix (fun m whole hm _ => ?_) spare
    have hd := hv.distinct
    rw [table.levels_eq_map] at hd ⊢
    refine finds_levelRules hd fun ts e r hts hr hlt => .orGroup ?_
    show (Parser.map Tree.value (operand.weaken.eval spare (.cons whole env))).Accepts ts r _
    rw [Rule.eval_weaken]
    exact .map (h ts e r hts hr (by omega))
  exact fun ts e r hts hr hlt => .map (htree ts e r hts hr hlt)

/-! ## Expressions -/

theorem finds_expression (hv : table.Valid) :
    ((expression table : Rule Γ Expr).eval spare env).Finds id
      (fun ts e => Derives table (.expression e) ts) (Stops table.levels) n := by
  refine Parser.Finds.fix (fun m self _ hself => ?_) spare
  intro ts e r hts hr hlt
  cases hts with
  | @lambda w body ts hw hbody =>
    have hlen : (ts ++ r).length < m := by
      simp only [List.cons_append, List.length_cons] at hlt
      omega
    refine .or_first (.keepRight (Rule.accepts_symbol "\\") (.commit (.map
      (.seq_cons (accepts_word hw) (.keepRight (Rule.accepts_symbol "->")
        (hself ts body r hbody hr hlen)) ?_))))
    rintro _ _ rfl rfl
    rfl
  | operation hks h =>
    obtain rfl := hks.eq_precedences
    refine .or_second (.map (.seq_first (Rule.declines_symbol fun ht => ?_))) ?_
    · -- No operation starts with a backslash.
      obtain ⟨t, ht', hstart⟩ := h.head
      rw [List.head?_append, ht', Option.some_or, Option.some.injEq] at ht
      subst ht
      exact absurd hstart (by simp [StartsTerm])
    · refine finds_operation hv (finds_call (finds_term hv ?_) ?_) ts e r h hr hlt
      · exact hself
      · exact fun rest hrest => declines_term fun t ht => (hrest t ht).1

/-! ## Programs -/

theorem accepts_statement {b : Binding} (hv : table.Valid) (h : Derives table (.binding b) ts)
    (hr : Stops table.levels r) :
    ((statement table (expression table) : Rule Γ Binding).eval spare env).Accepts ts r
      (· = b) := by
  cases h with
  | @binding x e ts us hx he =>
    rw [show (ts ++ .symbol "=" :: us : List Token) = ts ++ [.symbol "="] ++ us by simp]
    refine .label _ (.keepRight (Rule.accepts_keyword "let") (.commit (.map ?_)))
    refine .seq (.keepLeft (accepts_name hx) (Rule.accepts_symbol "="))
      (finds_expression hv us e r he hr (Nat.lt_succ_self _)) ?_
    rintro _ _ rfl rfl
    rfl

/-- What may follow a binding stops its expression. -/
theorem Derives.stops_further {bs : List Binding} {levels : List Level}
    (h : Derives table (.further bs) us) (hr : Stops levels r) : Stops levels (us ++ r) := by
  cases h with
  | noFurther => exact hr
  | further _ _ => exact stops_newline levels

/-- The loop over the bindings on further lines, up to what is no line break. -/
theorem accepts_further {bs : List Binding} (hv : table.Valid)
    (h : Derives table (.further bs) us) (hr : Stops table.levels r)
    (hbreak : r.head? ≠ some .newline) {turns : Nat} (hturns : (us ++ r).length < turns) :
    (Parser.collect (Parser.map Prod.snd (Parser.seq (Rule.newline.eval spare env)
      ((statement table (expression table)).eval spare env))) turns).Accepts us r (· = bs) := by
  induction bs generalizing us turns with
  | nil =>
    cases h
    obtain ⟨turns, rfl⟩ : ∃ k, turns = k + 1 := ⟨turns - 1, by omega⟩
    exact .collect_nil (.map (.seq_first (Rule.declines_newline hbreak)))
  | cons b bs ih =>
    cases h with
    | @further _ _ ts us hb hs =>
      simp only [List.cons_append, List.append_assoc, List.length_cons] at hturns
      obtain ⟨turns, rfl⟩ : ∃ k, turns = k + 1 := ⟨turns - 1, by omega⟩
      refine .collect_cons (.newline :: ts) (.keepRight Rule.accepts_newline
        (accepts_statement hv hb (hs.stops_further hr))) (ih hs ?_)
      rw [List.length_append] at hturns
      omega

/-- **The program that tokens are is found**, up to what neither goes on with it nor
starts one. -/
theorem accepts_bindings {bs : List Binding} (hv : table.Valid)
    (h : Derives table (.program ⟨bs⟩) ts) (hr : Stops table.levels r)
    (hbreak : r.head? ≠ some .newline) (hlet : ts = [] → r.head? ≠ some (.word "let")) :
    ((Rule.sepBy (statement table (expression table)) .newline : Rule Γ (List Binding)).eval
      spare env).Accepts ts r (· = bs) := by
  cases h with
  | empty =>
    refine .sepBy_nil spare (.label _ (.map (.seq_first ?_)))
    exact Rule.declines_keyword (hlet rfl)
  | @program b bs ts us hb hs =>
    refine .sepBy_cons spare (accepts_statement hv hb (hs.stops_further hr)) (.many spare ?_)
    exact fun _ => accepts_further hv hs hr hbreak

end Grammar

end Fixity
