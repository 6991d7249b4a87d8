import Fixity.Proofs.Levels
import Fixity.Proofs.Mirror
import Fixity.Proofs.Soundness

/-! # The rules of the grammar leave a trace

Every rule for a part of a line is traced: it reads no line break, and it commits itself
only right behind a backslash (`traced_expression`) or a `let` (`traced_statement`).  So
runs over parts of a line mirror each other, and in an expression without backslashes
there are no fatal failures.
-/
namespace Fixity

open OperatorTable (Level)

/-- The token stands in a line. -/
def Token.InLine (t : Token) : Prop := t ≠ .newline

/-- A run from the start of an input looks at nothing behind the end of it. -/
theorem Parser.Reads.within_start {α : Type} {p : Parser α} {done : List Token → α → Prop}
    {begun : List Token → Prop} {ts : List Token} (h : p.Reads done begun (ts.length + 1)) :
    (p (.start ts)).Within (ts.length + 1) := by
  have hbehind : ∀ us q, Behind ts ts us q → q ≤ ts.length := by
    rintro us q ⟨r, -, hq⟩
    omega
  have ho := h ts ts _ (Cursor.at_start ts) (Nat.lt_succ_self _)
  generalize p (.start ts) = o at ho
  cases ho with
  | @ok v c us r hts hat hdone hrec =>
    have hlen := hat.length
    exact ⟨by omega, hrec.explored_le fun us q hq _ => hbehind us q hq⟩
  | fail _ _ _ _ _ hrec => exact hrec.explored_le fun us q hq _ => hbehind us q hq

namespace Grammar
variable {Γ : List Type} {table : OperatorTable} {opens : Token → Prop} {behind : Prop}

/-! ## Single tokens -/

/-- A rule for one fixed token takes nothing else. -/
theorem of_ite_eq_some {α : Type} {P : Token → Prop} {u : Token} {v : α} (hu : P u) :
    ∀ t w, (if t = u then some v else none) = some w → P t := by
  intro t w h
  split at h
  · rename_i htu
    rw [htu]
    exact hu
  · cases h

theorem traced_symbol (text : String) :
    (Rule.symbol text : Rule Γ String).Traced Token.InLine opens behind :=
  of_ite_eq_some Token.noConfusion

theorem takes_symbol {text : String} (h : opens (.symbol text)) :
    (Rule.symbol text : Rule Γ String).Takes opens :=
  of_ite_eq_some h

theorem inLine_of_word? : ∀ t w, Token.word? t = some w → t.InLine := by
  rintro t w h rfl
  cases h

theorem inLine_of_symbol? : ∀ t s, Token.symbol? t = some s → t.InLine := by
  rintro t s h rfl
  cases h

/-! ## Names and terms -/

theorem traced_word : (word : Rule Γ String).Traced Token.InLine opens behind := inLine_of_word?

theorem traced_name : (name table : Rule Γ Name).Traced Token.InLine opens behind :=
  ⟨traced_word, ⟨traced_symbol "(", inLine_of_symbol?⟩, traced_symbol ")"⟩

theorem traced_literal : (literal : Rule Γ Literal).Traced Token.InLine opens behind := by
  rintro t l h rfl
  cases h

theorem traced_term {expression : Rule Γ Expr}
    (h : ∀ behind, expression.Traced Token.InLine opens behind) :
    (term table expression).Traced Token.InLine opens behind := by
  refine Rule.traced_oneOf (List.cons_ne_nil _ _) ?_
  simp only [List.forall_mem_cons]
  exact ⟨traced_name, traced_literal, ⟨⟨traced_symbol "(", h _⟩, traced_symbol ")"⟩, by simp⟩

/-! ## Operations -/

theorem traced_operatorRule {group : List Operator} (hne : group ≠ []) :
    (Tree.operatorRule Token.symbol? group : Rule Γ Operator).Traced Token.InLine opens behind := by
  refine Rule.traced_oneOf (by simpa using hne) ?_
  simp only [List.mem_map, forall_exists_index, and_imp]
  rintro _ op - rfl t w h rfl
  cases h

/-- A level that has operators has tails. -/
theorem tailRules_ne_nil {level : Level} (hne : level.operators ≠ []) :
    (Tree.tailRules Token.symbol? level : List (Rule (Tree Expr :: Tree Expr :: Γ) (Tail Expr))) ≠
      [] := by
  obtain ⟨op, hop⟩ := List.exists_mem_of_ne_nil _ hne
  have hgroup : ∃ a, op ∈ level.group a := by
    rw [Level.operators, List.mem_append, List.mem_append] at hop
    rcases hop with (hop | hop) | hop
    · exact ⟨.left, hop⟩
    · exact ⟨.right, hop⟩
    · exact ⟨.nonAssoc, hop⟩
  obtain ⟨a, ha⟩ := hgroup
  exact List.ne_nil_of_mem (mem_tailRules.mpr ⟨a, List.ne_nil_of_mem ha, rfl⟩)

/-- The tails of a level that has operators. -/
theorem traced_tailRules {level : Level} (hne : level.operators ≠ []) :
    (Rule.oneOf (Tree.tailRules Token.symbol? level) :
      Rule (Tree Expr :: Tree Expr :: Γ) (Tail Expr)).Traced Token.InLine opens behind := by
  refine Rule.traced_oneOf (tailRules_ne_nil hne) fun rule hrule => ?_
  obtain ⟨a, ha, rfl⟩ := mem_tailRules.mp hrule
  refine ⟨traced_operatorRule ha, ?_⟩
  cases a <;> trivial

theorem traced_levelRules {levels : List Level} {operand : Rule Γ (Tree Expr)}
    (hne : ∀ level ∈ levels, level.operators ≠ [])
    (h : ∀ behind, operand.Traced Token.InLine opens behind) (behind : Prop) :
    (Tree.levelRules Token.symbol? levels operand).Traced Token.InLine opens behind := by
  induction levels generalizing behind with
  | nil => exact h behind
  | cons level tighter ih =>
    obtain ⟨hlevel, htighter⟩ := List.forall_mem_cons.mp hne
    exact ⟨ih htighter False, trivial, traced_tailRules hlevel⟩

theorem traced_operation {operand : Rule Γ Expr}
    (h : ∀ behind, operand.Traced Token.InLine opens behind) :
    (operation table operand).Traced Token.InLine opens behind := by
  refine traced_levelRules table.operators_ne_nil_of_mem_levels (fun behind => ?_) False
  refine ⟨Rule.traced_weaken.mpr (h behind), ⟨?_, trivial⟩, ?_⟩
  · exact traced_symbol "("
  · exact traced_symbol ")"

/-! ## Expressions and bindings -/

/-- Functions commit themselves behind a backslash. -/
theorem traced_lambda (h : opens (.symbol "\\")) (x : Var Γ Expr) :
    (lambda (.ref x)).Traced Token.InLine opens behind :=
  ⟨traced_symbol "\\", Or.inr (takes_symbol h), traced_word, traced_symbol "->", trivial⟩

/-- **Expressions are traced.** -/
theorem traced_expression (h : opens (.symbol "\\")) :
    (expression table : Rule Γ Expr).Traced Token.InLine opens behind := by
  refine ⟨traced_lambda h .here, traced_operation fun _ => ?_⟩
  exact traced_term fun _ => trivial

/-- **Bindings are traced.**  They commit themselves behind `let`. -/
theorem traced_statement (h : opens (.symbol "\\")) (hlet : opens (.word "let")) :
    (statement table (expression table) : Rule Γ Binding).Traced Token.InLine opens behind :=
  ⟨of_ite_eq_some Token.noConfusion, Or.inr (of_ite_eq_some hlet),
    ⟨traced_name, traced_symbol "="⟩, traced_expression h⟩

end Grammar

end Fixity
