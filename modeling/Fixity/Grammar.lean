import Fixity.Expr
import Fixity.Tree.Rule

/-!
# The grammar

```text
program    := (binding (newline binding)*)?
binding    := "let" name "=" expression
expression := lambda | operation
lambda     := "\" word "->" expression
operation  := call (operator call)*        shaped by the operator table
call       := term term*
term       := name | literal | "(" expression ")"
name       := word | "(" operator ")"
```

A `let` and a backslash can start nothing else, so what follows them is committed: a
failure behind them is reported where it occurs.
-/

namespace Fixity.Grammar

variable {Γ : List Type}

/-- The word that starts a binding. -/
def letWord : String := "let"

/-- The words that are no names. -/
def keywords : List String := [letWord]

/-- Whether a word is no name. -/
def isKeyword (word : String) : Bool := keywords.contains word

/-! ## Names and literals -/

/-- A word that is a name. -/
def word : Rule Γ String :=
  .filter (fun word => !isKeyword word) "identifier" (.token Token.word? "identifier")

/-- A declared operator used as a value. -/
def enclosedOperator (table : OperatorTable) : Rule Γ String :=
  .between (.symbol "(") (.symbol ")")
    (.filter table.declares "declared operator" (.token Token.symbol? "operator"))

/-- A name. -/
def name (table : OperatorTable) : Rule Γ Name :=
  .label "identifier" (.or (word.map .word) ((enclosedOperator table).map .operator))

/-- A literal. -/
def literal : Rule Γ Literal := .token Literal.ofToken? "literal"

/-! ## Expressions -/

/-- A term: what can stand as a function or an argument. -/
def term (table : OperatorTable) (expression : Rule Γ Expr) : Rule Γ Expr :=
  .label "expression" (.oneOf
    [(name table).map Expr.name,
     literal.map Expr.literal,
     .between (.symbol "(") (.symbol ")") expression])

/-- A call: a term and the terms that follow it. -/
def call (term : Rule Γ Expr) : Rule Γ Expr :=
  term.many1.map fun terms => .ofTerms terms.1 terms.2

/-- Operands and operators. -/
def operation (table : OperatorTable) (operand : Rule Γ Expr) : Rule Γ Expr :=
  (Tree.rule Token.symbol? table (some .parentheses) operand).map Tree.toExpr

/-- A function of one parameter. -/
def lambda (expression : Rule Γ Expr) : Rule Γ Expr :=
  .keepRight (.symbol "\\") (.commit ((word.seq (.keepRight (.symbol "->") expression)).map
    fun parts => .lambda (.word parts.1) parts.2))

/-- **An expression.** -/
def expression (table : OperatorTable) : Rule Γ Expr :=
  .fix (.or (lambda (.ref .here)) (operation table (call (term table (.ref .here)))))

/-! ## Programs -/

/-- A binding. -/
def binding (table : OperatorTable) (expression : Rule Γ Expr) : Rule Γ Binding :=
  .keepRight (.keyword letWord) (.commit
    ((((name table).keepLeft (.symbol "=")).seq expression).map
      fun parts => ⟨parts.1, parts.2⟩))

/-- A statement, which is a binding. -/
def statement (table : OperatorTable) (expression : Rule Γ Expr) : Rule Γ Binding :=
  .label "statement" (binding table expression)

/-- **A program**, to the end of the input. -/
def program (table : OperatorTable) : Rule Γ Program :=
  (Rule.sepBy (statement table (expression table)) .newline).toEnd.map .mk

end Fixity.Grammar
