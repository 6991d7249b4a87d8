import Fixity.Cursor
import Fixity.Tree

/-!
# Parsers

A parser takes a cursor to an outcome: a value or a failure, each with the cursor that
is left behind, or the report that it would go on for ever (`Outcome`).  This module
defines what every way of building a parser from others does to values, failures, the
position and the record.

Two rules hold throughout.  A fatal failure passes through everything unchanged
(`Outcome.recover`).  A parser that recovers from a failure moves the cursor back to
where it started, and the record stays.

**Loops and recursion** take turns.  A parser that moves on whenever it succeeds needs
at most one turn for each remaining token and one more, and that many it is granted,
with `spare` further ones (`Cursor.turns`).  A parser that uses them up is `stalled`.  A
recursive rule that enters itself only behind a token never does: it is its own unfolding
(`Rule.Grounded.eval_fix`).
-/

namespace Fixity

/-- **The outcome of running a parser.** -/
inductive Outcome (α : Type) where
  /-- A value, and the cursor behind what was read. -/
  | ok (value : α) (cursor : Cursor)
  /-- A failure, and the cursor that was left behind. -/
  | fail (failure : Failure) (cursor : Cursor)
  /-- The parser goes round without moving on. -/
  | stalled
  deriving DecidableEq, Repr

namespace Outcome
variable {α β : Type}

/-- Goes on after a value. -/
def bind (outcome : Outcome α) (next : α → Cursor → Outcome β) : Outcome β :=
  match outcome with
  | ok value c => next value c
  | fail failure c => fail failure c
  | stalled => stalled

/-- Changes the value. -/
def map (f : α → β) (outcome : Outcome α) : Outcome β :=
  outcome.bind fun value c => ok (f value) c

/-- Goes on after a recoverable failure. -/
def recover (outcome : Outcome α) (next : Failure → Cursor → Outcome α) : Outcome α :=
  match outcome with
  | fail failure c => if failure.isFatal then fail failure c else next failure c
  | ok value c => ok value c
  | stalled => stalled

/-- The value, or the error to report. -/
def result : Outcome α → Except ParseError α
  | ok value _ => .ok value
  | fail failure c => .error (c.errorFor failure)
  | stalled => .error .stalled

@[simp] theorem bind_ok (value : α) (c : Cursor) (next : α → Cursor → Outcome β) :
    (ok value c).bind next = next value c := rfl

@[simp] theorem bind_fail (failure : Failure) (c : Cursor) (next : α → Cursor → Outcome β) :
    (fail failure c).bind next = fail failure c := rfl

@[simp] theorem bind_stalled (next : α → Cursor → Outcome β) :
    (stalled : Outcome α).bind next = stalled := rfl

@[simp] theorem map_ok (f : α → β) (value : α) (c : Cursor) :
    (ok value c).map f = ok (f value) c := rfl

@[simp] theorem map_fail (f : α → β) (failure : Failure) (c : Cursor) :
    (fail failure c).map f = fail failure c := rfl

@[simp] theorem map_stalled (f : α → β) : (stalled : Outcome α).map f = stalled := rfl

@[simp] theorem recover_ok (value : α) (c : Cursor) (next : Failure → Cursor → Outcome α) :
    (ok value c).recover next = ok value c := rfl

@[simp] theorem recover_stalled (next : Failure → Cursor → Outcome α) :
    (stalled : Outcome α).recover next = stalled := rfl

/-- A value after going on comes from a value before. -/
theorem bind_eq_ok {outcome : Outcome α} {next : α → Cursor → Outcome β} {b : β} {c : Cursor} :
    outcome.bind next = ok b c ↔ ∃ a c₁, outcome = ok a c₁ ∧ next a c₁ = ok b c := by
  constructor
  · intro h
    cases outcome with
    | ok a c₁ => exact ⟨a, c₁, rfl, h⟩
    | fail failure c₁ => cases h
    | stalled => cases h
  · rintro ⟨a, c₁, rfl, h⟩
    exact h

theorem recover_fatal {failure : Failure} (h : failure.isFatal = true) (c : Cursor)
    (next : Failure → Cursor → Outcome α) : (fail failure c).recover next = fail failure c := by
  simp [recover, h]

theorem recover_recoverable {failure : Failure} (h : failure.isFatal = false) (c : Cursor)
    (next : Failure → Cursor → Outcome α) : (fail failure c).recover next = next failure c := by
  simp [recover, h]

end Outcome

/-- **A parser.** -/
abbrev Parser (α : Type) := Cursor → Outcome α

/-- The turns that a loop or a recursive parser is granted. -/
def Cursor.turns (c : Cursor) (spare : Nat) : Nat := c.remaining + 1 + spare

namespace Parser
variable {α β : Type}

/-- Fails at the cursor with one expectation, and records the failure. -/
def reject (expected : String) : Parser α := fun c =>
  .fail (c.unmet expected) (c.remember (c.unmet expected))

/-- Reads one token that can be decoded. -/
def token (decode : Token → Option α) (expected : String) : Parser α := fun c =>
  match c.peek?.bind decode with
  | some value => .ok value c.advance
  | none => reject expected c

/-- Succeeds only where there is no token left. -/
def atEnd : Parser Unit := fun c =>
  if c.hasNext then reject "end of input" c else .ok () c

/-- A recursive rule that cannot be reached any more. -/
def dangling : Parser α := fun c =>
  .fail (c.unmet "a resolved recursive rule").toFatal c

/-- The first, then the second. -/
def seq (first : Parser α) (second : Parser β) : Parser (α × β) := fun c =>
  (first c).bind fun a c => (second c).map fun b => (a, b)

/-- Changes the value. -/
def map (f : α → β) (parser : Parser α) : Parser β := fun c => (parser c).map f

/-- The first, or if it fails the second from the same position. -/
def or (first second : Parser α) : Parser α := fun c =>
  (first c).recover fun failure c₁ =>
    (second (c₁.restore c.position)).recover fun failure' c₂ =>
      .fail (failure.merge failure') (c₂.restore c.position)

/-- Accepts only some of the values. -/
def filter (accepts : α → Bool) (expected : String) (parser : Parser α) : Parser α := fun c =>
  (parser c).bind fun value c' =>
    if accepts value then .ok value c' else reject expected (c'.restore c.position)

/-- Names what is expected, for a failure at the first token.  A failure that got past
it keeps its own, more precise, expectations. -/
def label (name : String) (parser : Parser α) : Parser α := fun c =>
  (parser c).recover fun failure c' =>
    if failure.position = c.position then
      .fail { failure with expected := [name] } (c'.remember { failure with expected := [name] })
    else .fail failure c'

/-- Tries parsers in order from the position `start`, after some have failed. -/
def tryEach (start : Nat) : List (Parser α) → Option Failure → Parser α
  | [], failure => fun c => .fail (failure.getD (c.unmet "an alternative")) c
  | parser :: rest, failure => fun c =>
    (parser c).recover fun failure' c' =>
      tryEach start rest (some (match failure with
        | some failure => failure.merge failure'
        | none => failure')) (c'.restore start)

/-- The first of several parsers that succeeds. -/
def firstOf (parsers : List (Parser α)) : Parser α := fun c =>
  tryEach c.position parsers none c

/-- Several parsers in order. -/
def sequence : List (Parser α) → Parser (List α)
  | [] => fun c => .ok [] c
  | parser :: rest => fun c =>
    (parser c).bind fun value c => (sequence rest c).map (value :: ·)

/-- The parser or, if it fails, nothing. -/
def optional (parser : Parser α) : Parser (Option α) := fun c =>
  ((parser c).map some).recover fun _ c' => .ok none (c'.restore c.position)

/-- Makes every failure fatal. -/
def commit (parser : Parser α) : Parser α := fun c =>
  (parser c).recover fun failure c' => .fail failure.toFatal (c'.rememberFatal failure)

/-- Requires that nothing is left behind the parser. -/
def toEnd (parser : Parser α) : Parser α := fun c =>
  (parser c).bind fun value c =>
    if c.hasNext then .fail (c.unmet "end of input").asTrailing c else .ok value c

/-- An operand or, if that fails at its first token, a group.  An operand that got past
its first token would fail in the same way as a group. -/
def orGroup (operand group : Parser α) : Parser α := fun c =>
  (operand c).recover fun failure c₁ =>
    if failure.position = c.position then
      (group (c₁.restore c.position)).recover fun failure' c₂ =>
        .fail (failure.merge failure') (c₂.restore c.position)
    else .fail failure c₁

/-! ## Loops -/

/-- The values of a parser that is run until it fails, in at most so many turns. -/
def collect (parser : Parser α) : Nat → Parser (List α)
  | 0 => fun _ => .stalled
  | turns + 1 => fun c =>
    match parser c with
    | .ok value c' => (collect parser turns c').map (value :: ·)
    | .fail failure c' =>
      if failure.isFatal then .fail failure c' else .ok [] (c'.restore c.position)
    | .stalled => .stalled

/-- Zero or more times. -/
def many (spare : Nat) (parser : Parser α) : Parser (List α) := fun c =>
  collect parser (c.turns spare) c

/-- Runs a parser until it fails, in at most so many turns, and adds each of its values to
what was there before. -/
def foldMany (parser : Parser α) (add : β → α → β) : Nat → β → Parser β
  | 0, _ => fun _ => .stalled
  | turns + 1, before => fun c =>
    match parser c with
    | .ok value c' => foldMany parser add turns (add before value) c'
    | .fail failure c' =>
      if failure.isFatal then .fail failure c' else .ok before (c'.restore c.position)
    | .stalled => .stalled

/-- One or more times: the first value, and the others. -/
def many1 (spare : Nat) (parser : Parser α) : Parser (α × List α) := fun c =>
  (parser c).bind fun first c =>
    foldMany parser (fun values value => (values.1, values.2 ++ [value])) (c.turns spare)
      (first, []) c

/-- Zero or more items with delimiters between them.  A delimiter without an item behind
it is left unread. -/
def sepBy (spare : Nat) (item : Parser α) (delimiter : Parser β) : Parser (List α) := fun c =>
  match item c with
  | .ok first c' =>
    foldMany (map Prod.snd (seq delimiter item)) (fun items value => items ++ [value])
      (c'.turns spare) [first] c'
  | .fail failure c' =>
    if failure.isFatal then .fail failure c' else .ok [] (c'.restore c.position)
  | .stalled => .stalled

/-- Values that are added one by one are collected and then added. -/
theorem foldMany_eq_map_collect (parser : Parser α) (add : β → α → β) (turns : Nat) (before : β)
    (c : Cursor) : foldMany parser add turns before c =
      (collect parser turns c).map fun values => values.foldl add before := by
  induction turns generalizing before c with
  | zero => rfl
  | succ turns ih =>
      simp only [foldMany, collect]
      cases parser c with
      | ok value c' =>
          show foldMany parser add turns (add before value) c' =
            ((collect parser turns c').map (value :: ·)).map fun values => values.foldl add before
          rw [ih]
          cases collect parser turns c' <;> rfl
      | fail failure c' => cases hf : failure.isFatal <;> simp [hf]
      | stalled => rfl

/-- **One or more times** is once, and then zero or more times. -/
theorem many1_eq_seq (spare : Nat) (parser : Parser α) :
    many1 spare parser = seq parser (many spare parser) := by
  funext c
  have hadd : ∀ (first : α) (values : List α),
      values.foldl (fun values value => (values.1, values.2 ++ [value])) (first, []) =
        (first, values) := by
    intro first values
    rw [List.foldl_hom (first, ·) fun _ _ => rfl, List.foldl_append_eq_append]
    simp [← List.flatMap_def]
  simp only [many1, seq, many, foldMany_eq_map_collect, hadd]

/-- **Items with delimiters between them** are one item, and zero or more times a delimiter
with an item behind it. -/
theorem sepBy_apply (spare : Nat) (item : Parser α) (delimiter : Parser β) (c : Cursor) :
    sepBy spare item delimiter c =
      match item c with
      | .ok first c' => (many spare (map Prod.snd (seq delimiter item)) c').map (first :: ·)
      | .fail failure c' =>
        if failure.isFatal then .fail failure c' else .ok [] (c'.restore c.position)
      | .stalled => .stalled := by
  have hadd : ∀ (first : α) (items : List α),
      items.foldl (fun items value => items ++ [value]) [first] = first :: items := by
    intro first items
    rw [List.foldl_append_eq_append]
    simp [← List.flatMap_def]
  simp only [sepBy, many, foldMany_eq_map_collect, hadd]

/-- Joins tails to a tree from the left, in at most so many turns, until one ends the
level or none follows. -/
def joinTails (tail : Parser (Tail α)) : Nat → Tree α → Parser (Tree α)
  | 0, _ => fun _ => .stalled
  | turns + 1, tree => fun c =>
    match tail c with
    | .ok (.more op right) c' => joinTails tail turns (.node op tree right) c'
    | .ok (.last op right) c' => .ok (.node op tree right) c'
    | .fail failure c' =>
      if failure.isFatal then .fail failure c' else .ok tree (c'.restore c.position)
    | .stalled => .stalled

/-- One precedence level: an operand, and the tails that follow it. -/
def chain (spare : Nat) (operand : Parser (Tree α)) (tail : Parser (Tail α)) :
    Parser (Tree α) := fun c =>
  (operand c).bind fun tree c => joinTails tail (c.turns spare) tree c

/-! ## Recursion -/

/-- A recursive parser that may enter itself so many times. -/
def iterate (body : Parser α → Parser α) : Nat → Parser α
  | 0 => fun _ => .stalled
  | turns + 1 => body (iterate body turns)

/-- **The recursive parser** of a body that is given the parser itself. -/
def fix (spare : Nat) (body : Parser α → Parser α) : Parser α := fun c =>
  iterate body (c.turns spare) c

end Parser

end Fixity
