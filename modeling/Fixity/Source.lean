import Fixity.Lexeme
import Fixity.Text.Blank
import Fixity.Text.Lines

/-!
# Source text

A source is read line by line.  Each line is trimmed; blank lines and comments carry
no code (`isComment`).  The other lines are scanned on their own, and the tokens of
two of them are separated by one `Token.newline` (`Source.tokens`), so a line break
in the text matters exactly where code stands on both sides of it.

The first line that cannot be scanned settles the error (`Source.Error`), which
counts every line of the source, code or not, from 1.
-/

namespace Fixity.Source

open Text

/-- Whether a trimmed line is a comment: two hyphens, then nothing or a blank. -/
def isComment : List Char → Bool
  | ['-', '-'] => true
  | '-' :: '-' :: c :: _ => isBlank c
  | _ => false

/-- A line of code. -/
structure CodeLine where
  /-- The number of the line in its source, from 1. -/
  number : Nat
  /-- The trimmed text. -/
  text : List Char
  deriving DecidableEq, Repr

/-- Whether a trimmed line carries code. -/
def isCode (text : List Char) : Bool := !text.isEmpty && !isComment text

/-- **The lines of code of a source.** -/
def codeLines (source : String) : List CodeLine :=
  ((numberedLines source.toList).map fun line => ⟨line.1, trim line.2⟩).filter
    fun line => isCode line.text

/-- A line that cannot be scanned. -/
structure Error where
  /-- The line. -/
  line : CodeLine
  /-- Where in the line scanning is stuck. -/
  stuck : Lexeme.Stuck
  deriving DecidableEq, Repr

/-- What is wrong with the line. -/
def Error.detail (error : Error) : String := error.stuck.message error.line.text

/-- The message for a source that cannot be scanned. -/
def Error.message (error : Error) : String :=
  "lexing failed on line " ++ natText error.line.number ++ ": " ++ error.detail

/-- The lexemes of one line. -/
def CodeLine.lexemes (line : CodeLine) : Except Error (List Lexeme) :=
  (Lexeme.scan line.text .origin).mapError fun stuck => ⟨line, stuck⟩

/-- The lexemes of each line, up to the first line that cannot be scanned. -/
def lexemes : List CodeLine → Except Error (List (List Lexeme))
  | [] => .ok []
  | line :: rest => line.lexemes.bind fun first => (lexemes rest).map (first :: ·)

/-- The tokens of consecutive lines, with a newline between two lines. -/
def joinLines (lines : List (List Token)) : List Token :=
  [Token.newline].intercalate lines

/-- **The tokens of a source.** -/
def tokens (source : String) : Except Error (List Token) :=
  (lexemes (codeLines source)).map fun lines => joinLines (lines.map (·.map Lexeme.token))

end Fixity.Source
