import Fixity.Expr

/-!
# Printing expressions and programs

The text of an expression can be read back without knowing any fixity: every compound
operand, argument and function stands in parentheses (`Expr.enclose`).  The call of an
operator on two arguments is written infix; every other call is written as the function
followed by its arguments.  A program has one binding on a line.
-/

namespace Fixity

/-- The text of a name: an operator symbol stands in parentheses. -/
def Name.print : Name → String
  | word text => text
  | operator symbol => "(" ++ symbol ++ ")"

/-- The text of a literal. -/
def Literal.print : Literal → String
  | integer digits => digits
  | string text => "\"" ++ text ++ "\""

namespace Expr

/-- The text of an expression where only a leaf can stand without parentheses. -/
def enclose (expr : Expr) (text : String) : String :=
  if expr.isLeaf then text else "(" ++ text ++ ")"

mutual

/-- **The text of an expression.** -/
def print : Expr → String
  | name x => x.print
  | literal value => value.print
  | call function arguments =>
    match function, printOperands arguments with
    | name (.operator symbol), [left, right] => left ++ " " ++ symbol ++ " " ++ right
    | _, operands => " ".intercalate (function.enclose function.print :: operands)
  | lambda parameter body => "\\" ++ parameter.print ++ " -> " ++ body.print

/-- The texts of expressions that are operands. -/
def printOperands : List Expr → List String
  | [] => []
  | expr :: rest => expr.enclose expr.print :: printOperands rest

end

/-- The text of an expression as an operand. -/
def printOperand (expr : Expr) : String := expr.enclose expr.print

theorem printOperands_eq_map (exprs : List Expr) :
    printOperands exprs = exprs.map printOperand := by
  induction exprs with
  | nil => rfl
  | cons expr rest ih => rw [printOperands, ih]; rfl

/-- The use of an operator is written infix. -/
theorem print_operation (symbol : String) (left right : Expr) :
    (operation symbol left right).print =
      left.printOperand ++ " " ++ symbol ++ " " ++ right.printOperand := rfl

end Expr

/-- The text of a binding. -/
def Binding.print (binding : Binding) : String :=
  "let " ++ binding.name.print ++ " = " ++ binding.value.print

/-- **The text of a program.** -/
def Program.print (program : Program) : String :=
  "\n".intercalate (program.bindings.map Binding.print)

end Fixity
