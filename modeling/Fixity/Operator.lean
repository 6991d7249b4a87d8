import Fixity.Text.Decimal

/-!
# Operators

An infix operator is a symbol with a fixity: a precedence, where the higher one binds
tighter, and an associativity, which says how uses of one precedence group when they
stand side by side.
-/

namespace Fixity

/-- How operators of one precedence group. -/
inductive Associativity where
  /-- To the left: `a - b - c` is `(a - b) - c`. -/
  | left
  /-- To the right: `a ^ b ^ c` is `a ^ (b ^ c)`. -/
  | right
  /-- Not at all: `a == b == c` is no expression. -/
  | nonAssoc
  deriving DecidableEq, Repr

namespace Associativity

/-- The word for an associativity. -/
def text : Associativity → String
  | left => "left"
  | right => "right"
  | nonAssoc => "none"

/-- The associativity that a word stands for. -/
def ofText? (word : String) : Option Associativity :=
  if word = "left" then some left
  else if word = "right" then some right
  else if word = "none" then some nonAssoc
  else none

@[simp] theorem ofText?_text (a : Associativity) : ofText? a.text = some a := by
  cases a <;> rfl

end Associativity

/-- **An infix operator.** -/
structure Operator where
  /-- The symbol it is written with. -/
  symbol : String
  /-- How tightly it binds. -/
  precedence : Int32
  /-- How it groups with operators of its precedence. -/
  associativity : Associativity
  deriving DecidableEq, Repr

namespace Operator

/-- An operator that groups to the left. -/
def left (symbol : String) (precedence : Int32) : Operator := ⟨symbol, precedence, .left⟩

/-- An operator that groups to the right. -/
def right (symbol : String) (precedence : Int32) : Operator := ⟨symbol, precedence, .right⟩

/-- An operator that does not group. -/
def nonAssoc (symbol : String) (precedence : Int32) : Operator := ⟨symbol, precedence, .nonAssoc⟩

/-- The declaration of an operator: its symbol, precedence and associativity. -/
def text (op : Operator) : String :=
  op.symbol ++ " " ++ Text.int32Text op.precedence ++ " " ++ op.associativity.text

end Operator

end Fixity
