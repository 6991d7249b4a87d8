/-!
# Tokens

What the grammar reads.  Punctuation and operators share one kind, `symbol`: the
grammar tells them apart by their text.  A line break that separates two lines of
code is a token of its own.

`Token.description` is how an error message names a token, and `Token.spelling` is how
a source text writes it.
-/

namespace Fixity

/-- **A token of the language.** -/
inductive Token where
  /-- A name or a keyword. -/
  | word (text : String)
  /-- An operator or a piece of punctuation. -/
  | symbol (text : String)
  /-- An integer literal, in the digits it was written with. -/
  | integer (digits : String)
  /-- A string literal: what stands between its quotes, escapes untouched. -/
  | string (text : String)
  /-- The break between two lines of code. -/
  | newline
  deriving DecidableEq, Repr, Inhabited

namespace Token

/-- The name of a token in an error message. -/
def description : Token → String
  | word text => "word '" ++ text ++ "'"
  | symbol text => "'" ++ text ++ "'"
  | integer digits => "integer '" ++ digits ++ "'"
  | string text => "string \"" ++ text ++ "\""
  | newline => "newline"

/-- The text that a source writes for a token. -/
def spelling : Token → String
  | word text => text
  | symbol text => text
  | integer digits => digits
  | string text => "\"" ++ text ++ "\""
  | newline => "\n"

/-- The text of a word. -/
def word? : Token → Option String
  | word text => some text
  | _ => none

/-- The text of a symbol. -/
def symbol? : Token → Option String
  | symbol text => some text
  | _ => none

@[simp] theorem word?_eq_some {t : Token} {text : String} :
    t.word? = some text ↔ t = .word text := by
  cases t <;> simp [word?]

@[simp] theorem symbol?_eq_some {t : Token} {text : String} :
    t.symbol? = some text ↔ t = .symbol text := by
  cases t <;> simp [symbol?]

end Token

end Fixity
