import Fixity.Text.Decimal

/-!
# Failures

A failure says at which token a rule could not go on, what it would have accepted
there and what it found.  A *recoverable* failure lets an alternative be tried; a
*fatal* one ends the parse.

Two failures are **merged** (`Failure.merge`) by keeping the deeper one; at the same
token their expectations are united.  What is reported in the end is a `ParseError`,
whose text is `ParseError.message`.
-/

namespace Fixity

/-- Whether another alternative may be tried after a failure. -/
inductive Severity where
  | recoverable
  | fatal
  deriving DecidableEq, Repr

/-- What a failure is about. -/
inductive Failure.Kind where
  /-- A token that no rule accepts where it stands. -/
  | unexpected
  /-- Input behind a complete text. -/
  | trailing
  deriving DecidableEq, Repr

/-- **A failure of a rule.** -/
structure Failure where
  /-- The number of tokens before the failure. -/
  position : Nat
  /-- What would have been accepted, in the order in which it was tried. -/
  expected : List String
  /-- The description of the token there, `none` at the end of the input. -/
  found : Option String
  /-- Whether another alternative may be tried. -/
  severity : Severity
  /-- What the failure is about. -/
  kind : Failure.Kind
  deriving DecidableEq, Repr

/-- Adds an expectation behind the others, unless it is one of them. -/
def addExpectation (expected : List String) (text : String) : List String :=
  if text ∈ expected then expected else expected ++ [text]

namespace Failure

/-- A recoverable failure that expects nothing yet. -/
def blank (position : Nat) : Failure := ⟨position, [], none, .recoverable, .unexpected⟩

/-- The failure with one more expectation. -/
def expecting (failure : Failure) (text : String) : Failure :=
  { failure with expected := addExpectation failure.expected text }

/-- The failure at a token with a description. -/
def finding (failure : Failure) (text : String) : Failure :=
  { failure with found := some text }

/-- The failure as one about trailing input. -/
def asTrailing (failure : Failure) : Failure := { failure with kind := .trailing }

/-- The failure as a fatal one. -/
def toFatal (failure : Failure) : Failure := { failure with severity := .fatal }

/-- Whether a failure ends the parse. -/
def isFatal (failure : Failure) : Bool := failure.severity = .fatal

/-- **The failure of two alternatives.**  The deeper one wins.  At the same token, the
expectations of the first come before what the second adds, the first description that
there is counts, one fatal failure makes both fatal, and the first says what the
failure is about. -/
def merge (first second : Failure) : Failure :=
  if second.position < first.position then first
  else if first.position < second.position then second
  else
    { first with
      expected := second.expected.foldl addExpectation first.expected
      found := first.found.or second.found
      severity := if second.isFatal then .fatal else first.severity }

@[simp] theorem isFatal_toFatal (failure : Failure) : failure.toFatal.isFatal = true := rfl

@[simp] theorem position_toFatal (failure : Failure) :
    failure.toFatal.position = failure.position := rfl

/-- A merged failure lies at the deeper of the two positions. -/
theorem position_merge (first second : Failure) :
    (first.merge second).position = max first.position second.position := by
  unfold merge
  split
  · omega
  · split
    · omega
    · show first.position = _
      omega

end Failure

/-! ## Errors -/

/-- **Why a text was not parsed.** -/
inductive ParseError where
  /-- A token that cannot stand where it does. -/
  | unexpected (position : Nat) (expected : List String) (found : String)
  /-- Input behind a complete text. -/
  | trailing (position : Nat) (expected : List String) (found : String)
  /-- A rule that goes round without moving on. -/
  | stalled
  deriving DecidableEq, Repr

/-- Several expectations in one phrase. -/
def expectationText : List String → String
  | [] => "something else"
  | [text] => text
  | expected => ", ".intercalate expected.dropLast ++ " or " ++ expected.getLastD ""

namespace ParseError

/-- The number of tokens before the error. -/
def position : ParseError → Nat
  | unexpected position _ _ => position
  | trailing position _ _ => position
  | stalled => 0

/-- What would have been accepted. -/
def expected : ParseError → List String
  | unexpected _ expected _ => expected
  | trailing _ expected _ => expected
  | stalled => []

/-- The description of the token at the error. -/
def found : ParseError → String
  | unexpected _ _ found => found
  | trailing _ _ found => found
  | stalled => "end of input"

/-- The message for a text that was not parsed. -/
def message : ParseError → String
  | unexpected position expected found =>
    "syntax error at token " ++ Text.natText position ++ ": expected " ++
      expectationText expected ++ ", found " ++ found
  | trailing position expected found =>
    "unexpected trailing input at token " ++ Text.natText position ++ ": " ++ found ++
      if expected.isEmpty then "" else " (expected " ++ expectationText expected ++ ")"
  | stalled => "the grammar does not move on"

end ParseError

/-- The error that reports a failure. -/
def Failure.toError (failure : Failure) : ParseError :=
  match failure.kind with
  | .unexpected =>
    .unexpected failure.position failure.expected (failure.found.getD "end of input")
  | .trailing =>
    .trailing failure.position failure.expected (failure.found.getD "end of input")

end Fixity
