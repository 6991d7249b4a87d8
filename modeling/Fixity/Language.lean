import Fixity.Grammar

/-!
# Languages

A language is the grammar over a valid operator table.  It has no other parts and no
state, so parsing is a function of the tokens.
-/

namespace Fixity

/-- **A language**: the choice of a valid operator table. -/
structure Language where
  /-- The operators. -/
  table : OperatorTable
  /-- The operators can drive a parser. -/
  valid : table.Valid

namespace Language

/-- The language of a table, if it is valid. -/
def ofTable (table : OperatorTable) : Except OperatorTable.Error Language :=
  match h : table.validate with
  | .ok () => .ok ⟨table, h⟩
  | .error error => .error error

/-- The language of the standard table. -/
def standard : Language := ⟨.standard, OperatorTable.standard_valid⟩

variable (L : Language)

/-- Whether a word is no name. -/
def isKeyword (word : String) : Bool := Grammar.isKeyword word

/-- The words that are no names. -/
def keywords : List String := Grammar.keywords

/-- Whether a symbol is an operator. -/
def isOperator (symbol : String) : Bool := L.table.declares symbol

/-- The rule for programs. -/
def program : Rule [] Program := Grammar.program L.table

/-- The rule for a text that is one expression. -/
def expression : Rule [] Expr := (Grammar.expression L.table).toEnd

/-- **The program that tokens are**, or why they are none. -/
def parse (tokens : List Token) : Except ParseError Program := L.program.parse tokens

/-- **The expression that tokens are**, or why they are none. -/
def parseExpression (tokens : List Token) : Except ParseError Expr := L.expression.parse tokens

end Language

end Fixity
