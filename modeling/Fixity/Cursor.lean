import Fixity.Failure
import Fixity.Token

/-!
# Cursors

A cursor stands between the tokens of an input, which never change, and carries the
furthest failure seen so far.  Moving it back (`Cursor.restore`) keeps that record, which
therefore knows what abandoned alternatives would have accepted; the final error is
chosen with its help (`Cursor.errorFor`).

Failures that a committed rule made fatal are listed in the order in which that
happened (`Cursor.madeFatal`), for the log.
-/

namespace Fixity

/-- **A cursor over tokens**: all that a parser reads and changes. -/
structure Cursor where
  /-- All tokens of the input. -/
  tokens : List Token
  /-- The number of tokens before the cursor. -/
  position : Nat
  /-- The merge of all failures recorded so far. -/
  furthest : Option Failure
  /-- The failures that were made fatal so far. -/
  madeFatal : List Failure
  deriving DecidableEq, Repr

namespace Cursor

/-- The cursor at the start of an input. -/
def start (tokens : List Token) : Cursor := ⟨tokens, 0, none, []⟩

/-- The token at the cursor. -/
def peek? (c : Cursor) : Option Token := c.tokens[c.position]?

/-- Whether there is a token at the cursor. -/
def hasNext (c : Cursor) : Bool := c.position < c.tokens.length

/-- The number of tokens from the cursor on. -/
def remaining (c : Cursor) : Nat := c.tokens.length - c.position

/-- The cursor behind the next token; at the end it stays where it is. -/
def advance (c : Cursor) : Cursor :=
  if c.hasNext then { c with position := c.position + 1 } else c

/-- The cursor moved to a position. -/
def restore (c : Cursor) (position : Nat) : Cursor := { c with position := position }

/-- The recoverable failure of an expectation at the cursor. -/
def unmet (c : Cursor) (expected : String) : Failure :=
  match c.peek? with
  | some token => ((Failure.blank c.position).expecting expected).finding token.description
  | none => (Failure.blank c.position).expecting expected

/-- The cursor that remembers a failure, which is merged behind those seen so far. -/
def remember (c : Cursor) (failure : Failure) : Cursor :=
  { c with furthest := some (match c.furthest with
    | some previous => previous.merge failure
    | none => failure) }

/-- The cursor that remembers that a failure was made fatal. -/
def rememberFatal (c : Cursor) (failure : Failure) : Cursor :=
  { c with madeFatal := c.madeFatal ++ [failure] }

/-- **The error to report** for a parse that ended in a failure.  A fatal failure is
reported as it is.  Trailing input takes over the expectations recorded at its
position; and where the record lies deeper than the failure, a rule stopped early, and
the record explains what is left over. -/
def errorFor (c : Cursor) (failure : Failure) : ParseError :=
  if failure.isFatal then failure.toError
  else
    match c.furthest with
    | none => failure.toError
    | some furthest =>
      if failure.kind = .trailing ∧ furthest.position = failure.position then
        { failure with expected := furthest.expected }.toError
      else if failure.position < furthest.position then
        { furthest with kind := .unexpected }.toError
      else failure.toError

@[simp] theorem restore_position (c : Cursor) : c.restore c.position = c := rfl

@[simp] theorem restore_restore (c : Cursor) (p q : Nat) :
    (c.restore p).restore q = c.restore q := rfl

@[simp] theorem tokens_restore (c : Cursor) (p : Nat) : (c.restore p).tokens = c.tokens := rfl

@[simp] theorem position_remember (c : Cursor) (f : Failure) : (c.remember f).position = c.position :=
  rfl

@[simp] theorem tokens_remember (c : Cursor) (f : Failure) : (c.remember f).tokens = c.tokens := rfl

/-- There is a token at the cursor exactly when the cursor is before the end. -/
theorem hasNext_iff_peek? (c : Cursor) : c.hasNext = true ↔ ∃ token, c.peek? = some token := by
  rw [hasNext, decide_eq_true_eq, peek?]
  constructor
  · intro h
    exact ⟨_, List.getElem?_eq_getElem h⟩
  · rintro ⟨token, h⟩
    exact (List.getElem?_eq_some_iff.mp h).1

end Cursor

end Fixity
