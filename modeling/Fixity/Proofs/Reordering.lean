import Fixity.Proofs.Expectations
import Fixity.Proofs.LevelOrder
import Fixity.Proofs.Termination

/-! # Order and numbers of declarations

A table may be declared in another order and with other numbers for the precedences, as
long as the numbers order the operators as before (`OperatorTable.Reordered`).  It is still
valid, it has as many levels, and each of them has the same symbols in each of its parts.
So programs and expressions are parsed as before, and errors differ at most in the order of
their expectations (`Language.parse_reordered`).
-/
namespace Fixity

open OperatorTable (Level)

/-- The operator with another precedence. -/
def Operator.withPrecedence (op : Operator) (k : Int32) : Operator := { op with precedence := k }

namespace OperatorTable

/-- **A table in another order, with other precedences**: those of `table` through `f`, which
keeps their order. -/
structure Reordered (table table' : OperatorTable) (f : Int32 → Int32) : Prop where
  perm : table'.operators.Perm
    (table.operators.map fun op => op.withPrecedence (f op.precedence))
  increasing : ∀ op ∈ table.operators, ∀ op' ∈ table.operators,
    op.precedence < op'.precedence → f op.precedence < f op'.precedence

namespace Reordered
variable {table table' : OperatorTable} {f : Int32 → Int32}

theorem mem_iff (h : table.Reordered table' f) {op' : Operator} :
    op' ∈ table'.operators ↔
      ∃ op ∈ table.operators, op.withPrecedence (f op.precedence) = op' := by
  rw [h.perm.mem_iff, List.mem_map]

/-- Precedences that differ are mapped to different ones. -/
theorem injective (h : table.Reordered table' f) {op op' : Operator} (hop : op ∈ table.operators)
    (hop' : op' ∈ table.operators) (heq : f op.precedence = f op'.precedence) :
    op.precedence = op'.precedence := by
  by_contra hne
  have hlt : op.precedence < op'.precedence ∨ op'.precedence < op.precedence := by grind
  rcases hlt with hlt | hlt
  · exact Int32.ne_of_lt (h.increasing op hop op' hop' hlt) heq
  · exact Int32.ne_of_lt (h.increasing op' hop' op hop hlt) heq.symm

theorem declares_eq (h : table.Reordered table' f) (s : String) :
    table.declares s = table'.declares s := by
  rw [Bool.eq_iff_iff, declares_iff, declares_iff]
  constructor
  · rintro ⟨op, hop, rfl⟩
    exact ⟨_, h.mem_iff.mpr ⟨op, hop, rfl⟩, rfl⟩
  · rintro ⟨op', hop', rfl⟩
    obtain ⟨op, hop, rfl⟩ := h.mem_iff.mp hop'
    exact ⟨op, hop, rfl⟩

/-- **Such a table is valid** too. -/
theorem valid (h : table.Reordered table' f) (hv : table.Valid) : table'.Valid := by
  obtain ⟨hnodup, hall⟩ := (valid_iff table).mp hv
  refine (valid_iff table').mpr ⟨?_, fun op' hop' => ?_⟩
  · rw [(h.perm.map (·.symbol)).nodup_iff, List.map_map]
    exact hnodup
  · obtain ⟨op, hop, rfl⟩ := h.mem_iff.mp hop'
    exact hall op hop

theorem precedences_eq (h : table.Reordered table' f) :
    table'.precedences = table.precedences.map f := by
  refine List.Pairwise.eq_of_mem_iff table'.precedences_ascending ?_ fun k => ?_
  · refine List.pairwise_map.mpr (table.precedences_ascending.imp_of_mem ?_)
    intro k k' hk hk' hlt
    obtain ⟨op, hop, rfl⟩ := mem_precedences.mp hk
    obtain ⟨op', hop', rfl⟩ := mem_precedences.mp hk'
    exact h.increasing op hop op' hop' hlt
  · rw [mem_precedences, List.mem_map]
    constructor
    · rintro ⟨op', hop', rfl⟩
      obtain ⟨op, hop, rfl⟩ := h.mem_iff.mp hop'
      exact ⟨op.precedence, mem_precedences.mpr ⟨op, hop, rfl⟩, rfl⟩
    · rintro ⟨k, hk, rfl⟩
      obtain ⟨op, hop, rfl⟩ := mem_precedences.mp hk
      exact ⟨_, h.mem_iff.mpr ⟨op, hop, rfl⟩, rfl⟩

/-- The parts of a level have the same symbols. -/
theorem sameTexts_select (h : table.Reordered table' f) {k : Int32} (hk : k ∈ table.precedences)
    (a : Associativity) :
    SameTexts ((select table.operators k a).map (·.symbol))
      ((select table'.operators (f k) a).map (·.symbol)) := by
  intro s
  simp only [List.mem_map, mem_select]
  constructor
  · rintro ⟨op, ⟨hop, rfl, ha⟩, rfl⟩
    exact ⟨_, ⟨h.mem_iff.mpr ⟨op, hop, rfl⟩, rfl, ha⟩, rfl⟩
  · rintro ⟨op', ⟨hop', hf, ha⟩, rfl⟩
    obtain ⟨op, hop, rfl⟩ := h.mem_iff.mp hop'
    obtain ⟨other, hother, rfl⟩ := mem_precedences.mp hk
    exact ⟨op, ⟨hop, h.injective hop hother hf, ha⟩, rfl⟩

/-- **The levels of both tables**, one beside the other. -/
theorem levels_similar (h : table.Reordered table' f) :
    List.Forall₂ (Grammar.LevelsSimilar anyOrder) table.levels table'.levels := by
  rw [levels_eq_map table, levels_eq_map table', h.precedences_eq, levelsAt, levelsAt, List.map_map,
    List.forall₂_map_left_iff, List.forall₂_map_right_iff]
  refine List.forall₂_same.mpr fun k hk => Grammar.levelsSimilar_anyOrder fun a => ?_
  rw [Function.comp_apply, group_levelAt, group_levelAt]
  exact h.sameTexts_select hk a

end Reordered

end OperatorTable

namespace Grammar
variable {Γ Δ : List Type} {table table' : OperatorTable} {f : Int32 → Int32} {spare : Nat}
  {env : Env Γ} {env' : Env Δ}

theorem similar_operation (h : table.Reordered table' f) {operand : Rule Γ Expr}
    {operand' : Rule Δ Expr}
    (ho : anyOrder.Similar Eq (operand.eval spare env) (operand'.eval spare env')) :
    anyOrder.Similar Eq ((operation table operand).eval spare env)
      ((operation table' operand').eval spare env') := by
  refine RunRelation.Similar.map (V := Tree.Same) (.fix (fun whole whole' hwhole => ?_) spare)
    fun _ _ ht => ht
  refine similar_levelRules Tree.same_keptByNodes h.levels_similar
    table.operators_ne_nil_of_mem_levels (.orGroup ?_ ?_)
  · show anyOrder.Similar _ (Parser.map _ (operand.weaken.eval spare _))
      (Parser.map _ (operand'.weaken.eval spare _))
    rw [Rule.eval_weaken, Rule.eval_weaken]
    exact similar_value ho
  · exact similar_group hwhole

theorem similar_expression (h : table.Reordered table' f) :
    anyOrder.Similar Eq ((expression table : Rule Γ Expr).eval spare env)
      ((expression table' : Rule Δ Expr).eval spare env') := by
  refine .fix (fun self self' hself => .or (similar_lambda ?_) (similar_operation h ?_)) spare
  · exact hself
  · exact similar_call (similar_term h.declares_eq hself)

end Grammar

namespace Language

/-- **Only the order of precedences matters.**  A table that is declared in another order,
with other precedences in the same order, is valid too.  The parses of all tokens, as a
program and as an expression, give the same value, or errors of the same kind at the same
position, with the same description of what was found there and the same expectations, in
any order. -/
theorem parse_reordered (L : Language) {table' : OperatorTable} {f : Int32 → Int32}
    (h : L.table.Reordered table' f) :
    ∃ hvalid : table'.Valid, ∀ ts,
      SameResult SameTexts Eq (L.parse ts) (Language.parse ⟨table', hvalid⟩ ts) ∧
      SameResult SameTexts Eq (L.parseExpression ts)
        (Language.parseExpression ⟨table', hvalid⟩ ts) := by
  refine ⟨h.valid L.valid, fun ts => ?_⟩
  have hstart : anyOrder.near (.start ts) (.start ts) := ⟨rfl, rfl, .inl (.refl _)⟩
  have hsimilar : anyOrder.Similar Eq ((Grammar.expression L.table : Rule [] Expr).eval 0 .nil)
      ((Grammar.expression table' : Rule [] Expr).eval 0 .nil) := Grammar.similar_expression h
  have hbindings : (Rule.sepBy (Grammar.statement L.table (Grammar.expression L.table))
      .newline : Rule [] (List Binding)).Productive := L.productive_program
  have hexpression : (Grammar.expression L.table : Rule [] Expr).Productive :=
    L.productive_expression
  constructor
  · exact Grammar.sameResult_program anyOrder_reports h.declares_eq hsimilar hstart
      (hbindings.run_ne_stalled _)
  · exact Grammar.sameResult_expression anyOrder_reports hsimilar hstart
      (hexpression.run_ne_stalled _)

/-- Sums and products. -/
def sumsAndProducts : Language :=
  ⟨⟨[.left "+" 6, .left "-" 6, .left "*" 7]⟩, by decide +kernel⟩

/-- The same operators, in another order and with other precedences. -/
def productsAndSums : Language :=
  ⟨⟨[.left "*" 2, .left "-" (-1), .left "+" (-1)]⟩, by decide +kernel⟩

/-- Behind `a`, where a parenthesis cannot stand, the plus sign and the minus sign are
expected in either order. -/
theorem parse_reordered_sumsAndProducts :
    sumsAndProducts.parseExpression [.word "a", .symbol ")"] = .error (.trailing 1
      ["identifier", "'('", "literal", "expression", "'*'", "'+'", "'-'"] "')'") ∧
    productsAndSums.parseExpression [.word "a", .symbol ")"] = .error (.trailing 1
      ["identifier", "'('", "literal", "expression", "'*'", "'-'", "'+'"] "')'") ∧
    SameResult SameTexts Eq (sumsAndProducts.parseExpression [.word "a", .symbol ")"])
      (productsAndSums.parseExpression [.word "a", .symbol ")"]) := by
  have h : sumsAndProducts.table.Reordered productsAndSums.table fun k => if k = 6 then -1 else 2 :=
    ⟨by decide +kernel, by decide +kernel⟩
  obtain ⟨hvalid, hparse⟩ := parse_reordered sumsAndProducts h
  exact ⟨by decide +kernel, by decide +kernel, (hparse _).2⟩

end Language

end Fixity
