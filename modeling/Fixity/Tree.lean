import Fixity.Operator

/-!
# Operator trees

The result of reading an infix expression: operands at the leaves, operators at the
nodes, grouped as their fixities say.  `Tree.listing` is the tree read from left to
right, which is how it stands in a text without parentheses.
-/

namespace Fixity

/-- **A binary tree of operators** over operands. -/
inductive Tree (α : Type) where
  /-- An operand. -/
  | value (operand : α)
  /-- The use of an operator. -/
  | node (op : Operator) (left right : Tree α)
  deriving DecidableEq, Repr

/-- What can follow an operand at a precedence level: an operator with its right-hand
side. -/
inductive Tail (α : Type) where
  /-- The use of an operator after which the level goes on. -/
  | more (op : Operator) (right : Tree α)
  /-- The use of an operator that ends the level. -/
  | last (op : Operator) (right : Tree α)
  deriving DecidableEq, Repr

namespace Tree

/-- The operands and operators from left to right. -/
def listing {α : Type} : Tree α → List (α ⊕ Operator)
  | value operand => [.inl operand]
  | node op left right => left.listing ++ .inr op :: right.listing

end Tree

end Fixity
