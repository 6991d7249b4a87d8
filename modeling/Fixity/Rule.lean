import Fixity.OperatorTable
import Fixity.Parser

/-!
# Rules

A rule is the description of a parser: a term built from tokens by the combinators of
this module.  Describing parsers by terms makes statements about *every* parser
possible, by induction on the rule.

`Rule Γ α` reads a value of type `α` and may refer to the rules around it, whose
types `Γ` lists, innermost first.  `Rule.fix` and `Rule.share` bring a rule into
scope, `Rule.ref` refers to it.

**The meaning of a rule** (`Rule.eval`) is the parser it describes, given parsers for
the rules around it.  A closed rule is run on tokens by `Rule.run`, and `Rule.parse`
reports the value or the error.
-/

namespace Fixity

/-- A reference to one of the rules around a rule. -/
inductive Var : List Type → Type → Type 1 where
  /-- The innermost rule. -/
  | here {Γ : List Type} {α : Type} : Var (α :: Γ) α
  /-- A rule further out. -/
  | there {Γ : List Type} {α β : Type} (x : Var Γ α) : Var (β :: Γ) α

/-- **A rule** that reads a value of type `α`. -/
inductive Rule : List Type → Type → Type 1 where
  /-- One token that can be decoded. -/
  | token {Γ : List Type} {α : Type} (decode : Token → Option α) (expected : String) : Rule Γ α
  /-- The end of the input. -/
  | atEnd {Γ : List Type} : Rule Γ Unit
  /-- A recursive rule that cannot be reached any more. -/
  | dangling {Γ : List Type} {α : Type} : Rule Γ α
  /-- One rule, then another. -/
  | seq {Γ : List Type} {α β : Type} (first : Rule Γ α) (second : Rule Γ β) : Rule Γ (α × β)
  /-- A rule with its value changed. -/
  | map {Γ : List Type} {α β : Type} (f : α → β) (rule : Rule Γ α) : Rule Γ β
  /-- One rule or, if it fails, another. -/
  | or {Γ : List Type} {α : Type} (first second : Rule Γ α) : Rule Γ α
  /-- A rule of which only some values are accepted. -/
  | filter {Γ : List Type} {α : Type} (accepts : α → Bool) (expected : String)
      (rule : Rule Γ α) : Rule Γ α
  /-- A rule with a name for what it expects. -/
  | label {Γ : List Type} {α : Type} (name : String) (rule : Rule Γ α) : Rule Γ α
  /-- The first of several rules that succeeds. -/
  | firstOf {Γ : List Type} {α : Type} {n : Nat} (rules : Fin n → Rule Γ α) : Rule Γ α
  /-- Several rules in order. -/
  | sequence {Γ : List Type} {α : Type} {n : Nat} (rules : Fin n → Rule Γ α) : Rule Γ (List α)
  /-- Zero or more times. -/
  | many {Γ : List Type} {α : Type} (rule : Rule Γ α) : Rule Γ (List α)
  /-- One or more times: the first value, and the others. -/
  | many1 {Γ : List Type} {α : Type} (rule : Rule Γ α) : Rule Γ (α × List α)
  /-- Zero or more items with delimiters between them. -/
  | sepBy {Γ : List Type} {α β : Type} (item : Rule Γ α) (delimiter : Rule Γ β) :
      Rule Γ (List α)
  /-- A rule or nothing. -/
  | optional {Γ : List Type} {α : Type} (rule : Rule Γ α) : Rule Γ (Option α)
  /-- A rule whose failures are fatal. -/
  | commit {Γ : List Type} {α : Type} (rule : Rule Γ α) : Rule Γ α
  /-- A rule behind which nothing is left. -/
  | toEnd {Γ : List Type} {α : Type} (rule : Rule Γ α) : Rule Γ α
  /-- An operand or, if that fails at its first token, a group. -/
  | orGroup {Γ : List Type} {α : Type} (operand group : Rule Γ α) : Rule Γ α
  /-- A precedence level: an operand, and the tails that follow it. -/
  | chain {Γ : List Type} {α : Type} (level : OperatorTable.Level) (operand : Rule Γ (Tree α))
      (tail : Rule Γ (Tail α)) : Rule Γ (Tree α)
  /-- A recursive rule, which is in scope in its own body. -/
  | fix {Γ : List Type} {α : Type} (body : Rule (α :: Γ) α) : Rule Γ α
  /-- A rule in which another one is in scope. -/
  | share {Γ : List Type} {α β : Type} (shared : Rule Γ β) (body : Rule (β :: Γ) α) : Rule Γ α
  /-- A reference to a rule in scope. -/
  | ref {Γ : List Type} {α : Type} (x : Var Γ α) : Rule Γ α

/-- Parsers for the rules in scope. -/
inductive Env : List Type → Type 1 where
  | nil : Env []
  | cons {Γ : List Type} {α : Type} (parser : Parser α) (env : Env Γ) : Env (α :: Γ)

/-- The parser that a reference stands for. -/
def Env.get {Γ : List Type} {α : Type} : Env Γ → Var Γ α → Parser α
  | .cons parser _, .here => parser
  | .cons _ env, .there x => env.get x

namespace Rule
variable {Γ Δ : List Type} {α β γ : Type}

/-- **The parser that a rule describes.**  Loops and recursive rules are granted `spare`
turns beyond those that a rule can use which moves on whenever it succeeds. -/
def eval (spare : Nat) {Γ : List Type} {α : Type} : Rule Γ α → Env Γ → Parser α
  | token decode expected, _ => .token decode expected
  | atEnd, _ => .atEnd
  | dangling, _ => .dangling
  | seq first second, env => .seq (first.eval spare env) (second.eval spare env)
  | map f rule, env => .map f (rule.eval spare env)
  | or first second, env => .or (first.eval spare env) (second.eval spare env)
  | filter accepts expected rule, env => .filter accepts expected (rule.eval spare env)
  | label name rule, env => .label name (rule.eval spare env)
  | firstOf rules, env => .firstOf (List.ofFn fun i => (rules i).eval spare env)
  | sequence rules, env => .sequence (List.ofFn fun i => (rules i).eval spare env)
  | many rule, env => .many spare (rule.eval spare env)
  | many1 rule, env => .many1 spare (rule.eval spare env)
  | sepBy item delimiter, env => .sepBy spare (item.eval spare env) (delimiter.eval spare env)
  | optional rule, env => .optional (rule.eval spare env)
  | commit rule, env => .commit (rule.eval spare env)
  | toEnd rule, env => .toEnd (rule.eval spare env)
  | orGroup operand group, env => .orGroup (operand.eval spare env) (group.eval spare env)
  | chain _ operand tail, env => .chain spare (operand.eval spare env) (tail.eval spare env)
  | fix body, env => .fix spare fun self => body.eval spare (.cons self env)
  | share shared body, env => body.eval spare (.cons (shared.eval spare env) env)
  | ref x, env => env.get x

/-- Runs a closed rule from a cursor. -/
def run (rule : Rule [] α) (c : Cursor) : Outcome α := rule.eval 0 .nil c

/-- **Runs a closed rule on tokens**: the value it reads, or the error to report. -/
def parse (rule : Rule [] α) (tokens : List Token) : Except ParseError α :=
  (rule.run (.start tokens)).result

/-! ## Scope -/

/-- A change of references from one scope to another. -/
abbrev Renaming (Γ Δ : List Type) := ∀ β : Type, Var Γ β → Var Δ β

/-- Carries a change of references under one more rule. -/
def Renaming.lift (ρ : Renaming Γ Δ) : Renaming (γ :: Γ) (γ :: Δ)
  | _, .here => .here
  | _, .there x => .there (ρ _ x)

/-- The rule with its references changed. -/
def rename {Γ : List Type} {α : Type} :
    Rule Γ α → ∀ {Δ : List Type}, Renaming Γ Δ → Rule Δ α
  | token decode expected, _, _ => .token decode expected
  | atEnd, _, _ => .atEnd
  | dangling, _, _ => .dangling
  | seq first second, _, ρ => .seq (first.rename ρ) (second.rename ρ)
  | map f rule, _, ρ => .map f (rule.rename ρ)
  | or first second, _, ρ => .or (first.rename ρ) (second.rename ρ)
  | filter accepts expected rule, _, ρ => .filter accepts expected (rule.rename ρ)
  | label name rule, _, ρ => .label name (rule.rename ρ)
  | firstOf rules, _, ρ => .firstOf fun i => (rules i).rename ρ
  | sequence rules, _, ρ => .sequence fun i => (rules i).rename ρ
  | many rule, _, ρ => .many (rule.rename ρ)
  | many1 rule, _, ρ => .many1 (rule.rename ρ)
  | sepBy item delimiter, _, ρ => .sepBy (item.rename ρ) (delimiter.rename ρ)
  | optional rule, _, ρ => .optional (rule.rename ρ)
  | commit rule, _, ρ => .commit (rule.rename ρ)
  | toEnd rule, _, ρ => .toEnd (rule.rename ρ)
  | orGroup operand group, _, ρ => .orGroup (operand.rename ρ) (group.rename ρ)
  | chain level operand tail, _, ρ => .chain level (operand.rename ρ) (tail.rename ρ)
  | fix body, _, ρ => .fix (body.rename (Renaming.lift ρ))
  | share shared body, _, ρ => .share (shared.rename ρ) (body.rename (Renaming.lift ρ))
  | ref x, _, ρ => .ref (ρ _ x)

/-- The rule in a scope with one more rule, which it does not refer to. -/
def weaken (rule : Rule Γ α) : Rule (γ :: Γ) α := rule.rename fun _ x => .there x

/-- Parsers that agree along a change of references agree under one more rule. -/
theorem Renaming.get_lift {ρ : Renaming Γ Δ} {env : Env Γ} {env' : Env Δ}
    (h : ∀ β (x : Var Γ β), env'.get (ρ β x) = env.get x) (parser : Parser γ) (β : Type)
    (x : Var (γ :: Γ) β) : (Env.cons parser env').get (ρ.lift β x) = (Env.cons parser env).get x := by
  cases x with
  | here => rfl
  | there x => exact h β x

/-- Renamed references mean what they meant if they stand for the same parsers. -/
theorem eval_rename (spare : Nat) (rule : Rule Γ α) (ρ : Renaming Γ Δ) (env : Env Γ)
    (env' : Env Δ) (h : ∀ β (x : Var Γ β), env'.get (ρ β x) = env.get x) :
    (rule.rename ρ).eval spare env' = rule.eval spare env := by
  induction rule generalizing Δ with
  | token => rfl
  | atEnd => rfl
  | dangling => rfl
  | seq first second ih ih' => simp only [rename, eval, ih ρ env env' h, ih' ρ env env' h]
  | map f rule ih => simp only [rename, eval, ih ρ env env' h]
  | or first second ih ih' => simp only [rename, eval, ih ρ env env' h, ih' ρ env env' h]
  | filter accepts expected rule ih => simp only [rename, eval, ih ρ env env' h]
  | label name rule ih => simp only [rename, eval, ih ρ env env' h]
  | firstOf rules ih => simp only [rename, eval, fun i => ih i ρ env env' h]
  | sequence rules ih => simp only [rename, eval, fun i => ih i ρ env env' h]
  | many rule ih => simp only [rename, eval, ih ρ env env' h]
  | many1 rule ih => simp only [rename, eval, ih ρ env env' h]
  | sepBy item delimiter ih ih' => simp only [rename, eval, ih ρ env env' h, ih' ρ env env' h]
  | optional rule ih => simp only [rename, eval, ih ρ env env' h]
  | commit rule ih => simp only [rename, eval, ih ρ env env' h]
  | toEnd rule ih => simp only [rename, eval, ih ρ env env' h]
  | orGroup operand group ih ih' => simp only [rename, eval, ih ρ env env' h, ih' ρ env env' h]
  | chain level operand tail ih ih' =>
      simp only [rename, eval, ih ρ env env' h, ih' ρ env env' h]
  | fix body ih =>
      simp only [rename, eval]
      congr 1
      funext self
      exact ih _ _ _ (Renaming.get_lift h self)
  | share shared body ih ih' =>
      simp only [rename, eval, ih ρ env env' h]
      exact ih' _ _ _ (Renaming.get_lift h _)
  | ref x => exact h _ x

/-- A rule that is put under another one means what it meant. -/
@[simp] theorem eval_weaken (spare : Nat) (rule : Rule Γ α) (parser : Parser γ) (env : Env Γ) :
    rule.weaken.eval spare (.cons parser env) = rule.eval spare env :=
  eval_rename spare rule _ env (.cons parser env) fun _ _ => rfl

/-! ## Rules made of rules -/

/-- One rule, then another; the value is the first one's. -/
def keepLeft (first : Rule Γ α) (second : Rule Γ β) : Rule Γ α := (first.seq second).map Prod.fst

/-- One rule, then another; the value is the second one's. -/
def keepRight (first : Rule Γ α) (second : Rule Γ β) : Rule Γ β := (first.seq second).map Prod.snd

/-- A rule between two others; the value is its own. -/
def between (left : Rule Γ α) (right : Rule Γ β) (rule : Rule Γ γ) : Rule Γ γ :=
  (left.keepRight rule).keepLeft right

/-- The first rule of a list that succeeds. -/
def oneOf (rules : List (Rule Γ α)) : Rule Γ α := .firstOf fun i => rules.get i

/-- The rules of a list in order. -/
def inOrder (rules : List (Rule Γ α)) : Rule Γ (List α) := .sequence fun i => rules.get i

/-- An expectation of one text. -/
def quote (text : String) : String := "'" ++ text ++ "'"

/-- The symbol with a text. -/
def symbol (text : String) : Rule Γ String :=
  .token (fun token => if token = .symbol text then some text else none) (quote text)

/-- The word with a text. -/
def keyword (text : String) : Rule Γ String :=
  .token (fun token => if token = .word text then some text else none) (quote text)

/-- The break between two lines. -/
def newline : Rule Γ Unit :=
  .token (fun token => if token = .newline then some () else none) "newline"

/-! ## The levels of a rule -/

/-- The precedence levels that a rule is built from, in the order of their building: what a
level is built over comes before it. -/
def levels {Γ : List Type} {α : Type} : Rule Γ α → List OperatorTable.Level
  | token _ _ => []
  | atEnd => []
  | dangling => []
  | seq first second => first.levels ++ second.levels
  | map _ rule => rule.levels
  | or first second => first.levels ++ second.levels
  | filter _ _ rule => rule.levels
  | label _ rule => rule.levels
  | firstOf rules => (List.ofFn fun i => (rules i).levels).flatten
  | sequence rules => (List.ofFn fun i => (rules i).levels).flatten
  | many rule => rule.levels
  | many1 rule => rule.levels
  | sepBy item delimiter => item.levels ++ delimiter.levels
  | optional rule => rule.levels
  | commit rule => rule.levels
  | toEnd rule => rule.levels
  | orGroup operand group => operand.levels ++ group.levels
  | chain level operand tail => operand.levels ++ tail.levels ++ [level]
  | fix body => body.levels
  | share shared body => shared.levels ++ body.levels
  | ref _ => []

end Rule

end Fixity
