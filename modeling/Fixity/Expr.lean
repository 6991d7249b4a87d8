import Fixity.Token
import Fixity.Tree

/-!
# Expressions and programs

The tree of a parsed text.  An expression is a name, a literal, a call of a function on
one or more arguments, or a function of one parameter; a program is a list of bindings
in the order of the source.

The use of an infix operator is not a form of its own: it is the call of the operator's
name on two arguments (`Tree.toExpr`).
-/

namespace Fixity

/-- **A name**: a word, or an operator symbol used as a value. -/
inductive Name where
  /-- A word. -/
  | word (text : String)
  /-- An operator symbol. -/
  | operator (symbol : String)
  deriving DecidableEq, Repr

/-- The text that a name consists of. -/
def Name.text : Name → String
  | word text => text
  | operator symbol => symbol

/-- **A literal**, kept in the spelling of the source. -/
inductive Literal where
  | integer (digits : String)
  | string (text : String)
  deriving DecidableEq, Repr

/-- The literal that a token is. -/
def Literal.ofToken? : Token → Option Literal
  | .integer digits => some (integer digits)
  | .string text => some (string text)
  | _ => none

/-- **An expression.** -/
inductive Expr where
  /-- A name. -/
  | name (name : Name)
  /-- A literal. -/
  | literal (value : Literal)
  /-- A function applied to arguments, from left to right. -/
  | call (function : Expr) (arguments : List Expr)
  /-- A function of one parameter. -/
  | lambda (parameter : Name) (body : Expr)
  deriving Repr

namespace Expr

/-- Whether an expression is a leaf, which never needs parentheses. -/
def isLeaf : Expr → Bool
  | name _ => true
  | literal _ => true
  | call _ _ => false
  | lambda _ _ => false

/-- The use of an operator. -/
def operation (symbol : String) (left right : Expr) : Expr :=
  call (name (.operator symbol)) [left, right]

/-- A term with the terms that follow it: a call, or the term itself if none follows. -/
def ofTerms (first : Expr) (rest : List Expr) : Expr :=
  if rest.isEmpty then first else call first rest

mutual

/-- Equality of expressions is decidable. -/
def decEq (a b : Expr) : Decidable (a = b) :=
  match a with
  | name x =>
    match b with
    | name y => decidable_of_iff (x = y) (by simp)
    | literal _ | call _ _ | lambda _ _ => isFalse nofun
  | literal x =>
    match b with
    | literal y => decidable_of_iff (x = y) (by simp)
    | name _ | call _ _ | lambda _ _ => isFalse nofun
  | call f xs =>
    match b with
    | call g ys =>
      match decEq f g, decEqAll xs ys with
      | isTrue h, isTrue h' => isTrue (by rw [h, h'])
      | isFalse h, _ => isFalse (by simp [h])
      | _, isFalse h => isFalse (by simp [h])
    | name _ | literal _ | lambda _ _ => isFalse nofun
  | lambda x e =>
    match b with
    | lambda y e' =>
      match decEq e e' with
      | isTrue h => decidable_of_iff (x = y) (by simp [h])
      | isFalse h => isFalse (by simp [h])
    | name _ | literal _ | call _ _ => isFalse nofun

/-- Equality of lists of expressions is decidable. -/
def decEqAll (as bs : List Expr) : Decidable (as = bs) :=
  match as with
  | [] =>
    match bs with
    | [] => isTrue rfl
    | _ :: _ => isFalse nofun
  | a :: as =>
    match bs with
    | b :: bs =>
      match decEq a b, decEqAll as bs with
      | isTrue h, isTrue h' => isTrue (by rw [h, h'])
      | isFalse h, _ => isFalse (by simp [h])
      | _, isFalse h => isFalse (by simp [h])
    | [] => isFalse nofun

end

instance : DecidableEq Expr := decEq

end Expr

/-- **The expression of an operator tree**: every node is the call of its operator on the
expressions of its two sides. -/
def Tree.toExpr : Tree Expr → Expr
  | .value operand => operand
  | .node op left right => .operation op.symbol left.toExpr right.toExpr

/-- **A binding** of a name to a value. -/
structure Binding where
  /-- The name that is bound. -/
  name : Name
  /-- What it is bound to. -/
  value : Expr
  deriving DecidableEq, Repr

/-- **A program**: bindings in the order of the source, where later ones may bind a name
again. -/
structure Program where
  /-- The bindings. -/
  bindings : List Binding
  deriving DecidableEq, Repr

end Fixity
