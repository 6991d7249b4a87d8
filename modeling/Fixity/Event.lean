import Fixity.Language
import Fixity.Source
import Fixity.Text.Quoted

/-!
# The log

What happens while a source is scanned and parsed, as a list of events in their order:
every lexeme with its place, every precedence level as its rule is built, every failure
that is made fatal, and the start and end of a parse.  `Event.text` is the line that the
log shows for an event.
-/

namespace Fixity

/-- **An event of the log.** -/
inductive Event where
  /-- A lexeme was taken from a line. -/
  | scanned (line : Source.CodeLine) (lexeme : Lexeme)
  /-- The rule of a precedence level is built. -/
  | building (level : OperatorTable.Level)
  /-- A failure is made fatal. -/
  | promoting (failure : Failure)
  /-- The parse of a program starts. -/
  | parsing (tokens : Nat)
  /-- The parse of a program has ended with so many bindings. -/
  | parsed (bindings : Nat)
  /-- A parse has ended with an error. -/
  | rejected (error : ParseError)
  deriving DecidableEq, Repr

/-- A token with the name of its kind. -/
def Token.tagged : Token → String
  | word text => "Word(" ++ Text.quoted text ++ ")"
  | symbol text => "Symbol(" ++ Text.quoted text ++ ")"
  | integer digits => "Integer(" ++ Text.quoted digits ++ ")"
  | string text => "Str(" ++ Text.quoted text ++ ")"
  | newline => "Newline"

/-- The line and column of a place. -/
def Place.text (place : Place) : String :=
  "(" ++ Text.natText place.line ++ ", " ++ Text.natText place.column ++ ")"

/-- Where in its line a lexeme stands. -/
def Lexeme.spanText (lexeme : Lexeme) (line : Source.CodeLine) : String :=
  "Span \x7b start: " ++ lexeme.start.text ++ ", end: " ++ lexeme.stop.text ++ ", source: " ++
    Text.quoted (String.ofList line.text) ++ " \x7d"

/-- **The line of the log for an event.** -/
def Event.text : Event → String
  | scanned line lexeme =>
    "TRACE line " ++ Text.natText line.number ++ ": lexed " ++ lexeme.token.tagged ++ " at " ++
      lexeme.spanText line
  | building level =>
    "TRACE building precedence level " ++ Text.int32Text level.precedence ++
      " (left: " ++ Text.natText level.left.length ++
      ", right: " ++ Text.natText level.right.length ++
      ", none: " ++ Text.natText level.nonAssoc.length ++ ")"
  | promoting failure =>
    "TRACE promoting failure at token " ++ Text.natText failure.position ++
      " to fatal (expected " ++ Text.quotedList failure.expected ++ ")"
  | parsing tokens => "DEBUG parsing program from " ++ Text.natText tokens ++ " tokens"
  | parsed bindings => "DEBUG parsed " ++ Text.natText bindings ++ " statements"
  | rejected error => "DEBUG parse failed: " ++ error.message

/-- The events of scanning lines, up to the first line that cannot be scanned. -/
def Source.logLines : List CodeLine → List Event
  | [] => []
  | line :: rest =>
    match line.lexemes with
    | .ok lexemes => lexemes.map (.scanned line) ++ logLines rest
    | .error _ => []

/-- **The events of scanning a source.** -/
def Source.log (source : String) : List Event := logLines (codeLines source)

/-- The failures that were made fatal on the way to an outcome. -/
def Outcome.madeFatal {α : Type} : Outcome α → List Failure
  | ok _ c => c.madeFatal
  | fail _ c => c.madeFatal
  | stalled => []

/-- **The events of building and running a rule** from a cursor. -/
def Rule.log {α : Type} (rule : Rule [] α) (c : Cursor) : List Event :=
  rule.levels.map .building ++ ((rule.run c).madeFatal.drop c.madeFatal.length).map .promoting

namespace Language
variable (L : Language)

/-- The events of parsing a program. -/
def parseLog (tokens : List Token) : List Event :=
  .parsing tokens.length :: L.program.log (.start tokens) ++
    match L.parse tokens with
    | .ok program => [.parsed program.bindings.length]
    | .error error => [.rejected error]

/-- The events of parsing an expression. -/
def parseExpressionLog (tokens : List Token) : List Event :=
  L.expression.log (.start tokens) ++
    match L.parseExpression tokens with
    | .ok _ => []
    | .error error => [.rejected error]

end Language

end Fixity
