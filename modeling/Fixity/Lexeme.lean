import Fixity.Text.Decimal
import Fixity.Token

/-!
# Lexemes

A lexeme is a stretch of text that makes one token, with the place where it stands.
There are seven kinds (`Lexeme.Kind`): words, integers, quoted strings, runs of
operator characters, and three single characters.  No two kinds share a first
character, so the first character settles the kind, and each kind takes as much
text as it can (`Lexeme.take?`).

**Scanning** (`Lexeme.scan`) skips layout, takes a lexeme and goes on with the text
behind it, which is shorter (`Lexeme.take?_rest_lt`).  It is stuck at the first
character, other than layout, that no kind can take.

Offsets and columns count the bytes of the UTF-8 encoding.  A line feed starts a new
line only where it is layout: one inside a quoted string is a character like any
other.
-/

namespace Fixity

/-! ## Character classes -/

/-- The characters that the scanner takes for operators. -/
def symbolChars : List Char := "-+*/^<>=!&|.:$%~?@#".toList

/-- Whether operators may hold a character. -/
def isSymbolChar (c : Char) : Bool := symbolChars.contains c

/-- Whether a word may start with a character. -/
def isWordStart (c : Char) : Bool := c.isAlpha || c = '_'

/-- Whether a word may go on with a character. -/
def isWordPart (c : Char) : Bool := c.isAlphanum || c = '_' || c = '\''

/-- Whether a character separates lexemes and belongs to none. -/
def isLayout (c : Char) : Bool :=
  c = ' ' || c = '\t' || c = '\n' || c = '\x0C' || c = '\r'

/-! ## Places -/

/-- A place in a text. -/
structure Place where
  /-- The number of bytes before the place. -/
  offset : Nat
  /-- The number of line feeds skipped before the place. -/
  line : Nat
  /-- The number of bytes between the last line feed skipped and the place. -/
  column : Nat
  deriving DecidableEq, Repr

namespace Place

/-- The place at the start of a text. -/
def origin : Place := ⟨0, 0, 0⟩

/-- The place behind a layout character. -/
def skip (place : Place) (c : Char) : Place :=
  if c = '\n' then ⟨place.offset + 1, place.line + 1, 0⟩
  else ⟨place.offset + 1, place.line, place.column + 1⟩

/-- The number of bytes of a text. -/
def byteLength : List Char → Nat
  | [] => 0
  | c :: cs => c.utf8Size + byteLength cs

/-- The place behind a lexeme. -/
def advance (place : Place) (text : List Char) : Place :=
  ⟨place.offset + byteLength text, place.line, place.column + byteLength text⟩

end Place

/-! ## Lexemes -/

/-- The kinds of lexemes. -/
inductive Lexeme.Kind where
  | word
  | integer
  | quoted
  | operator
  | backslash
  | leftParen
  | rightParen
  deriving DecidableEq, Repr

/-- **A lexeme.** -/
structure Lexeme where
  /-- What kind of token it makes. -/
  kind : Lexeme.Kind
  /-- Its text, the quotes of a string included. -/
  text : List Char
  /-- Where it starts. -/
  start : Place
  /-- The place behind it. -/
  stop : Place
  deriving DecidableEq, Repr

namespace Lexeme

/-- The token that a lexeme makes. -/
def token (lexeme : Lexeme) : Token :=
  match lexeme.kind with
  | .word => .word (String.ofList lexeme.text)
  | .integer => .integer (String.ofList lexeme.text)
  | .quoted => .string (String.ofList lexeme.text.tail.dropLast)
  | .operator | .backslash | .leftParen | .rightParen => .symbol (String.ofList lexeme.text)

/-! ## Taking one lexeme -/

/-- Splits a text behind the quote that closes a string.  A backslash takes the next
character with it, which must not be a line feed; without a closing quote there is
no string. -/
def closeQuote? : List Char → Option (List Char × List Char)
  | [] => none
  | '"' :: rest => some (['"'], rest)
  | '\\' :: c :: rest =>
    if c = '\n' then none
    else (closeQuote? rest).map fun split => ('\\' :: c :: split.1, split.2)
  | c :: rest =>
    if c = '\\' then none
    else (closeQuote? rest).map fun split => (c :: split.1, split.2)

/-- What is taken from the front of a text. -/
structure Taken where
  /-- The kind of the lexeme. -/
  kind : Kind
  /-- Its text. -/
  text : List Char
  /-- The text behind it. -/
  rest : List Char
  deriving DecidableEq, Repr

/-- The lexeme made of `c` and the characters after it in the class `p`. -/
def takeRun (kind : Kind) (p : Char → Bool) (c : Char) (cs : List Char) : Taken :=
  ⟨kind, c :: cs.takeWhile p, cs.dropWhile p⟩

/-- **The lexeme at the front of a text**, as long as its kind allows. -/
def take? : List Char → Option Taken
  | [] => none
  | c :: cs =>
    if isWordStart c then some (takeRun .word isWordPart c cs)
    else if c.isDigit then some (takeRun .integer Char.isDigit c cs)
    else if isSymbolChar c then some (takeRun .operator isSymbolChar c cs)
    else if c = '"' then (closeQuote? cs).map fun split => ⟨.quoted, c :: split.1, split.2⟩
    else if c = '\\' then some ⟨.backslash, [c], cs⟩
    else if c = '(' then some ⟨.leftParen, [c], cs⟩
    else if c = ')' then some ⟨.rightParen, [c], cs⟩
    else none

/-- Closing a string splits the text in two. -/
theorem append_of_closeQuote? {cs : List Char} {split : List Char × List Char}
    (h : closeQuote? cs = some split) : split.1 ++ split.2 = cs := by
  induction cs using closeQuote?.induct generalizing split with
  | case1 => simp [closeQuote?] at h
  | case2 rest =>
      simp only [closeQuote?, Option.some.injEq] at h
      subst h
      rfl
  | case3 rest => simp [closeQuote?] at h
  | case4 c rest hc ih =>
      simp only [closeQuote?, hc, if_false, Option.map_eq_some_iff] at h
      obtain ⟨inner, hinner, rfl⟩ := h
      simp [ih hinner]
  | case5 c hq hb =>
      rw [closeQuote?.eq_4 _ _ hq hb, if_pos rfl] at h
      cases h
  | case6 c rest hq hb hc ih =>
      rw [closeQuote?.eq_4 _ _ hq hb, if_neg hc, Option.map_eq_some_iff] at h
      obtain ⟨inner, hinner, rfl⟩ := h
      simp [ih hinner]

/-- Taking a lexeme splits the text in two. -/
theorem append_of_take? {cs : List Char} {taken : Taken} (h : take? cs = some taken) :
    taken.text ++ taken.rest = cs := by
  cases cs with
  | nil => simp [take?] at h
  | cons c cs =>
      simp only [take?] at h
      split at h
      · cases h; simp [takeRun]
      split at h
      · cases h; simp [takeRun]
      split at h
      · cases h; simp [takeRun]
      split at h
      · obtain ⟨split, hsplit, rfl⟩ := Option.map_eq_some_iff.mp h
        simp [append_of_closeQuote? hsplit]
      split at h
      · cases h; rfl
      split at h
      · cases h; rfl
      split at h
      · cases h; rfl
      · cases h

/-- A lexeme has at least one character. -/
theorem text_ne_nil_of_take? {cs : List Char} {taken : Taken} (h : take? cs = some taken) :
    taken.text ≠ [] := by
  cases cs with
  | nil => simp [take?] at h
  | cons c cs =>
      simp only [take?] at h
      split at h
      · cases h; simp [takeRun]
      split at h
      · cases h; simp [takeRun]
      split at h
      · cases h; simp [takeRun]
      split at h
      · obtain ⟨split, -, rfl⟩ := Option.map_eq_some_iff.mp h
        simp
      split at h
      · cases h; simp
      split at h
      · cases h; simp
      split at h
      · cases h; simp
      · cases h

/-- **What is left behind a lexeme is shorter.** -/
theorem take?_rest_lt {cs : List Char} {taken : Taken} (h : take? cs = some taken) :
    taken.rest.length < cs.length := by
  have hsplit := congrArg List.length (append_of_take? h)
  have hpos := List.length_pos_iff.mpr (text_ne_nil_of_take? h)
  rw [List.length_append] at hsplit
  omega

/-! ## Scanning a text -/

/-- Where scanning cannot go on. -/
structure Stuck where
  /-- The number of bytes before the place. -/
  offset : Nat
  /-- The text that is left. -/
  rest : List Char
  deriving DecidableEq, Repr

/-- **The lexemes of a text** that stands at a place. -/
def scan (text : List Char) (place : Place) : Except Stuck (List Lexeme) :=
  match text with
  | [] => .ok []
  | c :: cs =>
    if isLayout c then scan cs (place.skip c)
    else
      match h : take? (c :: cs) with
      | none => .error ⟨place.offset, c :: cs⟩
      | some taken =>
        have := take?_rest_lt h
        (scan taken.rest (place.advance taken.text)).map
          (⟨taken.kind, taken.text, place, place.advance taken.text⟩ :: ·)
termination_by text.length
decreasing_by
  · exact Nat.lt_succ_self cs.length
  · exact this

/-- The message for a text in which scanning is stuck. -/
def Stuck.message (stuck : Stuck) (text : List Char) : String :=
  "Failed to lex '" ++ String.ofList text ++ "' at position " ++ Text.natText stuck.offset ++
    "; remaining '" ++ String.ofList stuck.rest ++ "'"

end Lexeme

end Fixity
