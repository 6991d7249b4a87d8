import Fixity.Language
import Fixity.Proofs.LevelOrder

/-! # Derivations

The grammar as a relation between token lists and what they stand for, said
without any parser: no order among alternatives, no backtracking, no record.

A `Phrase` is a part of speech together with the value that the tokens have as
such.  `Derives table phrase tokens` holds when `tokens`, all of them, are the
phrase:

```text
program   ::= empty | binding (newline binding)*
binding   ::= "let" name "=" expression
expression ::= "\" word "->" expression | operation of all precedences
operation of no precedence ::= term | term term term*
operation of k, tighter    ::= (operation of tighter) tails
tails     ::= empty
            | left operator of k, (operation of tighter), tails
            | right operator of k, (operation of k, tighter)
            | non-associative operator of k, (operation of tighter)
term      ::= name | literal | "(" expression ")"
name      ::= word | "(" declared operator ")"
```

Precedences go from the loosest to the tightest.  Tails carry the value of what stands
before them, so that operators of the left fold to the left: each tail makes one call of
its operator on what stands before it and its right-hand side, and the next tail goes on
from there.

`Begins table part tokens` holds when `tokens` are the beginning of a phrase of
that part of speech and the phrase is not complete yet, whatever may follow.
-/
namespace Fixity.Grammar

/-- **A part of speech with its value.** -/
inductive Phrase where
  /-- A name. -/
  | name (x : Name)
  /-- What can stand as a function or an argument. -/
  | term (e : Expr)
  /-- Zero or more terms. -/
  | arguments (es : List Expr)
  /-- Calls with the operators of some precedences between them, loosest first. -/
  | operation (ks : List Int32) (e : Expr)
  /-- What follows the operand `left` at a precedence and makes `e` of it. -/
  | tails (k : Int32) (tighter : List Int32) (left e : Expr)
  /-- An expression. -/
  | expression (e : Expr)
  /-- A binding. -/
  | binding (b : Binding)
  /-- Zero or more bindings, each behind a line break. -/
  | further (bs : List Binding)
  /-- A program. -/
  | program (p : Program)

/-- **The phrases that token lists are.** -/
inductive Derives (table : OperatorTable) : Phrase → List Token → Prop where
  | word {w : String} (hw : w ≠ "let") : Derives table (.name (.word w)) [.word w]
  | enclosed {op : Operator} (hop : op ∈ table.operators) :
      Derives table (.name (.operator op.symbol)) [.symbol "(", .symbol op.symbol, .symbol ")"]
  | name {x : Name} {ts : List Token} (h : Derives table (.name x) ts) :
      Derives table (.term (.name x)) ts
  | integer {digits : String} :
      Derives table (.term (.literal (.integer digits))) [.integer digits]
  | string {text : String} : Derives table (.term (.literal (.string text))) [.string text]
  | group {e : Expr} {ts : List Token} (h : Derives table (.expression e) ts) :
      Derives table (.term e) (.symbol "(" :: (ts ++ [.symbol ")"]))
  | noArgument : Derives table (.arguments []) []
  | argument {e : Expr} {es : List Expr} {ts us : List Token} (h : Derives table (.term e) ts)
      (hs : Derives table (.arguments es) us) : Derives table (.arguments (e :: es)) (ts ++ us)
  | single {e : Expr} {ts : List Token} (h : Derives table (.term e) ts) :
      Derives table (.operation [] e) ts
  | call {e e' : Expr} {es : List Expr} {ts us : List Token} (h : Derives table (.term e) ts)
      (hs : Derives table (.arguments (e' :: es)) us) :
      Derives table (.operation [] (.call e (e' :: es))) (ts ++ us)
  | level {k : Int32} {tighter : List Int32} {left e : Expr} {ts us : List Token}
      (h : Derives table (.operation tighter left) ts)
      (hs : Derives table (.tails k tighter left e) us) :
      Derives table (.operation (k :: tighter) e) (ts ++ us)
  | noTail {k : Int32} {tighter : List Int32} {left : Expr} :
      Derives table (.tails k tighter left left) []
  | leftTail {k : Int32} {tighter : List Int32} {left right e : Expr} {op : Operator}
      {ts us : List Token}
      (hop : op ∈ table.operators ∧ op.precedence = k ∧ op.associativity = .left)
      (h : Derives table (.operation tighter right) ts)
      (hs : Derives table
        (.tails k tighter (.call (.name (.operator op.symbol)) [left, right]) e) us) :
      Derives table (.tails k tighter left e) (.symbol op.symbol :: (ts ++ us))
  | rightTail {k : Int32} {tighter : List Int32} {left right : Expr} {op : Operator}
      {ts : List Token}
      (hop : op ∈ table.operators ∧ op.precedence = k ∧ op.associativity = .right)
      (h : Derives table (.operation (k :: tighter) right) ts) :
      Derives table (.tails k tighter left (.call (.name (.operator op.symbol)) [left, right]))
        (.symbol op.symbol :: ts)
  | nonAssocTail {k : Int32} {tighter : List Int32} {left right : Expr} {op : Operator}
      {ts : List Token}
      (hop : op ∈ table.operators ∧ op.precedence = k ∧ op.associativity = .nonAssoc)
      (h : Derives table (.operation tighter right) ts) :
      Derives table (.tails k tighter left (.call (.name (.operator op.symbol)) [left, right]))
        (.symbol op.symbol :: ts)
  | lambda {w : String} {e : Expr} {ts : List Token} (hw : w ≠ "let")
      (h : Derives table (.expression e) ts) :
      Derives table (.expression (.lambda (.word w) e))
        (.symbol "\\" :: .word w :: .symbol "->" :: ts)
  | operation {ks : List Int32} {e : Expr} {ts : List Token} (hks : table.Ranking ks)
      (h : Derives table (.operation ks e) ts) : Derives table (.expression e) ts
  | binding {x : Name} {e : Expr} {ts us : List Token} (hx : Derives table (.name x) ts)
      (he : Derives table (.expression e) us) :
      Derives table (.binding ⟨x, e⟩) (.word "let" :: (ts ++ .symbol "=" :: us))
  | noFurther : Derives table (.further []) []
  | further {b : Binding} {bs : List Binding} {ts us : List Token}
      (h : Derives table (.binding b) ts) (hs : Derives table (.further bs) us) :
      Derives table (.further (b :: bs)) (.newline :: (ts ++ us))
  | empty : Derives table (.program ⟨[]⟩) []
  | program {b : Binding} {bs : List Binding} {ts us : List Token}
      (h : Derives table (.binding b) ts) (hs : Derives table (.further bs) us) :
      Derives table (.program ⟨b :: bs⟩) (ts ++ us)

/-- A phrase that is not one of zero or more holds a token. -/
theorem Derives.ne_nil {table : OperatorTable} {phrase : Phrase} {ts : List Token}
    (h : Derives table phrase ts) :
    match phrase with
    | .arguments _ | .tails .. | .further _ | .program _ => True
    | _ => ts ≠ [] := by
  induction h with
  | single _ ih => exact ih
  | call _ _ ih => simp [ih]
  | level _ _ ih => simp [ih]
  | name _ ih => exact ih
  | operation _ _ ih => exact ih
  | _ => simp

/-- A call is an operation of any precedences. -/
theorem derives_of_call {table : OperatorTable} {e : Expr} {ts : List Token}
    (h : Derives table (.operation [] e) ts) (ks : List Int32) :
    Derives table (.operation ks e) ts := by
  induction ks with
  | nil => exact h
  | cons k tighter ih => simpa using Derives.level ih .noTail

/-- So is a term. -/
theorem derives_of_term {table : OperatorTable} {e : Expr} {ts : List Token}
    (h : Derives table (.term e) ts) (ks : List Int32) : Derives table (.operation ks e) ts :=
  derives_of_call (.single h) ks

/-- An operation of all precedences is an expression. -/
theorem derives_of_operation {table : OperatorTable} {e : Expr} {ts : List Token}
    (h : Derives table (.operation table.precedences e) ts) : Derives table (.expression e) ts :=
  .operation table.ranking_precedences h

/-! ## Beginnings -/

/-- A part of speech. -/
inductive Part where
  | name
  | term
  | arguments
  | operation (ks : List Int32)
  | tails (k : Int32) (tighter : List Int32)
  | expression
  | binding
  | further
  | program

/-- **The beginnings of phrases that more tokens must follow.** -/
inductive Begins (table : OperatorTable) : Part → List Token → Prop where
  | name : Begins table .name []
  | enclosed : Begins table .name [.symbol "("]
  | enclosing {op : Operator} (hop : op ∈ table.operators) :
      Begins table .name [.symbol "(", .symbol op.symbol]
  | termName {ts : List Token} (h : Begins table .name ts) : Begins table .term ts
  | group {ts : List Token} (h : Begins table .expression ts) :
      Begins table .term (.symbol "(" :: ts)
  | grouped {e : Expr} {ts : List Token} (h : Derives table (.expression e) ts) :
      Begins table .term (.symbol "(" :: ts)
  | argument {ts : List Token} (h : Begins table .term ts) (hne : ts ≠ []) :
      Begins table .arguments ts
  | nextArgument {e : Expr} {ts us : List Token} (h : Derives table (.term e) ts)
      (hs : Begins table .arguments us) : Begins table .arguments (ts ++ us)
  | function {ts : List Token} (h : Begins table .term ts) : Begins table (.operation []) ts
  | call {e : Expr} {ts us : List Token} (h : Derives table (.term e) ts)
      (hs : Begins table .arguments us) : Begins table (.operation []) (ts ++ us)
  | operand {k : Int32} {tighter : List Int32} {ts : List Token}
      (h : Begins table (.operation tighter) ts) : Begins table (.operation (k :: tighter)) ts
  | level {k : Int32} {tighter : List Int32} {e : Expr} {ts us : List Token}
      (h : Derives table (.operation tighter e) ts) (hs : Begins table (.tails k tighter) us) :
      Begins table (.operation (k :: tighter)) (ts ++ us)
  | leftTail {k : Int32} {tighter : List Int32} {op : Operator} {ts : List Token}
      (hop : op ∈ table.operators ∧ op.precedence = k ∧ op.associativity = .left)
      (h : Begins table (.operation tighter) ts) :
      Begins table (.tails k tighter) (.symbol op.symbol :: ts)
  | rightTail {k : Int32} {tighter : List Int32} {op : Operator} {ts : List Token}
      (hop : op ∈ table.operators ∧ op.precedence = k ∧ op.associativity = .right)
      (h : Begins table (.operation (k :: tighter)) ts) :
      Begins table (.tails k tighter) (.symbol op.symbol :: ts)
  | nonAssocTail {k : Int32} {tighter : List Int32} {op : Operator} {ts : List Token}
      (hop : op ∈ table.operators ∧ op.precedence = k ∧ op.associativity = .nonAssoc)
      (h : Begins table (.operation tighter) ts) :
      Begins table (.tails k tighter) (.symbol op.symbol :: ts)
  | nextTail {k : Int32} {tighter : List Int32} {e : Expr} {op : Operator}
      {ts us : List Token}
      (hop : op ∈ table.operators ∧ op.precedence = k ∧ op.associativity = .left)
      (h : Derives table (.operation tighter e) ts)
      (hs : Begins table (.tails k tighter) us) :
      Begins table (.tails k tighter) (.symbol op.symbol :: (ts ++ us))
  | operation {ts : List Token} (h : Begins table (.operation table.precedences) ts) :
      Begins table .expression ts
  | lambda : Begins table .expression [.symbol "\\"]
  | parameter {w : String} (hw : w ≠ "let") :
      Begins table .expression [.symbol "\\", .word w]
  | body {w : String} {ts : List Token} (hw : w ≠ "let") (h : Begins table .expression ts) :
      Begins table .expression (.symbol "\\" :: .word w :: .symbol "->" :: ts)
  | binding : Begins table .binding []
  | bound {ts : List Token} (h : Begins table .name ts) :
      Begins table .binding (.word "let" :: ts)
  | equals {x : Name} {ts : List Token} (h : Derives table (.name x) ts) :
      Begins table .binding (.word "let" :: ts)
  | value {x : Name} {ts us : List Token} (hx : Derives table (.name x) ts)
      (h : Begins table .expression us) :
      Begins table .binding (.word "let" :: (ts ++ .symbol "=" :: us))
  | further {ts : List Token} (h : Begins table .binding ts) :
      Begins table .further (.newline :: ts)
  | nextFurther {b : Binding} {ts us : List Token} (h : Derives table (.binding b) ts)
      (hs : Begins table .further us) : Begins table .further (.newline :: (ts ++ us))
  | first {ts : List Token} (h : Begins table .binding ts) (hne : ts ≠ []) :
      Begins table .program ts
  | program {b : Binding} {ts us : List Token} (h : Derives table (.binding b) ts)
      (hs : Begins table .further us) : Begins table .program (ts ++ us)

/-- The beginning of a phrase of zero or more holds a token: before it, nothing is
wanted. -/
theorem Begins.ne_nil {table : OperatorTable} {part : Part} {ts : List Token}
    (h : Begins table part ts) :
    match part with
    | .arguments | .tails .. | .further | .program => ts ≠ []
    | _ => True := by
  induction h with
  | argument _ hne => exact hne
  | nextArgument _ _ ih => exact List.append_ne_nil_of_right_ne_nil _ ih
  | first _ hne => exact hne
  | program _ _ ih => exact List.append_ne_nil_of_right_ne_nil _ ih
  | _ => simp

end Fixity.Grammar
