import Fixity.Rule

/-!
# The rule for operator trees

Infix expressions are read level by level.  A level reads one operand of the next
tighter level and then tails:

* an operator that groups to the left, with an operand of the tighter level, after which
  the level goes on;
* an operator that groups to the right, with an operand of *this* level, which has read
  the rest of the level;
* an operator that does not group, with an operand of the tighter level, which ends the
  level.

The tightest level reads operands or, where there are `Delimiters`, a whole expression
between them.  No level refers to itself before it has read an operand, so there is no
left recursion.
-/

namespace Fixity

/-- Delimiters that may enclose a whole expression. -/
structure Delimiters (Γ : List Type) where
  /-- What stands before the expression. -/
  opening : Rule Γ Unit
  /-- What stands behind it. -/
  closing : Rule Γ Unit

/-- Parentheses. -/
def Delimiters.parentheses {Γ : List Type} : Delimiters Γ where
  opening := (Rule.symbol "(").map fun _ => ()
  closing := (Rule.symbol ")").map fun _ => ()

namespace Tree
variable {Γ : List Type} {α : Type} (symbol? : Token → Option String)

/-- One of several operators, where `symbol?` gives the symbol that a token may be. -/
def operatorRule (group : List Operator) : Rule Γ Operator :=
  .oneOf (group.map fun op =>
    .token (fun token => if symbol? token = some op.symbol then some op else none)
      (Rule.quote op.symbol))

/-- A tail: an operator of a group, and its right-hand side. -/
def tailRule (make : Operator → Tree α → Tail α) (group : List Operator)
    (right : Rule Γ (Tree α)) : Rule Γ (Tail α) :=
  ((operatorRule symbol? group).seq right).map fun tail => make tail.1 tail.2

/-- The tails of a level, for the associativities that it has operators of.  The level
itself and the next tighter one are in scope. -/
def tailRules (level : OperatorTable.Level) :
    List (Rule (Tree α :: Tree α :: Γ) (Tail α)) :=
  (if level.left.isEmpty then []
    else [tailRule symbol? .more level.left (.ref (.there .here))]) ++
  (if level.right.isEmpty then []
    else [tailRule symbol? .last level.right (.ref .here)]) ++
  (if level.nonAssoc.isEmpty then []
    else [tailRule symbol? .last level.nonAssoc (.ref (.there .here))])

/-- A level over the next tighter one. -/
def levelRule (level : OperatorTable.Level) (tighter : Rule Γ (Tree α)) : Rule Γ (Tree α) :=
  .share tighter (.fix (.chain level (.ref (.there .here)) (.oneOf (tailRules symbol? level))))

/-- Several levels, loosest first, over operands. -/
def levelRules (levels : List OperatorTable.Level) (operand : Rule Γ (Tree α)) :
    Rule Γ (Tree α) :=
  levels.foldr (levelRule symbol?) operand

/-- What the tightest level reads, where the whole expression is in scope. -/
def operandRule (delimiters? : Option (Delimiters Γ)) (operand : Rule Γ α) :
    Rule (Tree α :: Γ) (Tree α) :=
  match delimiters? with
  | none => operand.weaken.map .value
  | some delimiters =>
    .orGroup (operand.weaken.map .value)
      (.between delimiters.opening.weaken delimiters.closing.weaken (.ref .here))

/-- **The rule for infix expressions** over operands, shaped by an operator table. -/
def rule (table : OperatorTable) (delimiters? : Option (Delimiters Γ)) (operand : Rule Γ α) :
    Rule Γ (Tree α) :=
  .fix (levelRules symbol? table.levels (operandRule delimiters? operand))

end Tree

end Fixity
