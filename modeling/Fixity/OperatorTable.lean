import Fixity.Lexeme
import Fixity.Operator

/-!
# Operator tables

The operators of a language, in the order of their declaration.  A table can drive a
parser when its symbols are pairwise distinct, none of them is punctuation of the
grammar, and each is a run of operator characters (`OperatorTable.validate`).  These are
listed here once more, apart from the scanner, which is to see such a symbol as one lexeme.

**The levels of a table** (`OperatorTable.levels`) collect the operators of one
precedence, split by associativity, with the loosest level first.
-/

namespace Fixity

/-- **An operator table.** -/
structure OperatorTable where
  /-- The operators in the order of their declaration. -/
  operators : List Operator
  deriving DecidableEq, Repr

namespace OperatorTable

/-- The standard table. -/
def standard : OperatorTable where
  operators :=
    [.right "$" 0, .right "||" 2, .right "&&" 3,
     .nonAssoc "==" 4, .nonAssoc "/=" 4, .nonAssoc "<" 4, .nonAssoc "<=" 4,
     .nonAssoc ">" 4, .nonAssoc ">=" 4,
     .right "++" 5, .left "+" 6, .left "-" 6, .left "*" 7, .left "/" 7,
     .right "^" 8, .right "." 9]

/-- The first operator with a symbol. -/
def get? (table : OperatorTable) (symbol : String) : Option Operator :=
  table.operators.find? fun op => op.symbol = symbol

/-- Whether a symbol is declared. -/
def declares (table : OperatorTable) (symbol : String) : Bool :=
  table.operators.any fun op => op.symbol = symbol

/-- The declared symbols in the order of their code points, each once. -/
def symbols (table : OperatorTable) : List String :=
  (table.operators.map (·.symbol)).eraseDups.mergeSort fun a b => decide (a ≤ b)

/-! ## Validity -/

/-- What is wrong with a table. -/
inductive Error where
  /-- A symbol is declared a second time. -/
  | duplicate (symbol : String)
  /-- A symbol is punctuation of the grammar. -/
  | reserved (symbol : String)
  /-- A symbol is not a run of operator characters. -/
  | notASymbol (symbol : String)
  /-- A word is no associativity. -/
  | notAnAssociativity (word : String)
  /-- A line is no declaration. -/
  | malformed (line : Nat) (text : String)
  deriving DecidableEq, Repr

/-- The message for a table that cannot be used. -/
def Error.message : Error → String
  | duplicate symbol => "operator '" ++ symbol ++ "' is declared more than once"
  | reserved symbol => "'" ++ symbol ++ "' is reserved by the grammar and cannot be an operator"
  | notASymbol symbol => "'" ++ symbol ++ "' is not a valid operator symbol"
  | notAnAssociativity word =>
    "unknown associativity '" ++ word ++ "' (expected left, right or none)"
  | malformed line text =>
    "malformed operator declaration on line " ++ Text.natText line ++ ": " ++ text

/-- The punctuation of the grammar. -/
def punctuation : List String := ["=", "->", "\\", "(", ")"]

/-- The characters that a declared symbol may hold. -/
def operatorChars : List Char := "-+*/^<>=!&|.:$%~?@#".toList

/-- Whether a text is a run of operator characters. -/
def isSymbol (text : String) : Bool := !text.isEmpty && text.toList.all operatorChars.contains

/-- Checks operators in order, after some symbols have been seen. -/
def check (seen : List String) : List Operator → Except Error Unit
  | [] => .ok ()
  | op :: rest =>
    if op.symbol ∈ punctuation then .error (.reserved op.symbol)
    else if isSymbol op.symbol = false then .error (.notASymbol op.symbol)
    else if op.symbol ∈ seen then .error (.duplicate op.symbol)
    else check (op.symbol :: seen) rest

/-- **Whether a table can drive a parser**, and if not, what is wrong with the first
operator that cannot stand where it does. -/
def validate (table : OperatorTable) : Except Error Unit := check [] table.operators

/-- A table that can drive a parser. -/
def Valid (table : OperatorTable) : Prop := table.validate = .ok ()

instance (table : OperatorTable) : Decidable table.Valid :=
  match h : table.validate with
  | .ok () => isTrue h
  | .error _ => isFalse fun hv => nomatch h.symm.trans hv

theorem standard_valid : standard.Valid := by decide +kernel

/-! ## Levels -/

/-- **A precedence level**: the operators of one precedence, split by associativity and
each part in the order of declaration. -/
structure Level where
  /-- The precedence. -/
  precedence : Int32
  /-- The operators that group to the left. -/
  left : List Operator
  /-- The operators that group to the right. -/
  right : List Operator
  /-- The operators that do not group. -/
  nonAssoc : List Operator
  deriving DecidableEq, Repr

namespace Level

/-- The level of one precedence without operators. -/
def empty (precedence : Int32) : Level := ⟨precedence, [], [], []⟩

/-- Whether a level has no operators. -/
def isEmpty (level : Level) : Bool :=
  level.left.isEmpty && level.right.isEmpty && level.nonAssoc.isEmpty

/-- The operators of one associativity. -/
def group (level : Level) : Associativity → List Operator
  | .left => level.left
  | .right => level.right
  | .nonAssoc => level.nonAssoc

/-- The level with one more operator, behind those of its associativity. -/
def push (level : Level) (op : Operator) : Level :=
  match op.associativity with
  | .left => { level with left := level.left ++ [op] }
  | .right => { level with right := level.right ++ [op] }
  | .nonAssoc => { level with nonAssoc := level.nonAssoc ++ [op] }

@[simp] theorem precedence_push (level : Level) (op : Operator) :
    (level.push op).precedence = level.precedence := by
  unfold push
  split <;> rfl

/-- An operator joins the part of its associativity and no other. -/
theorem group_push (level : Level) (op : Operator) (a : Associativity) :
    (level.push op).group a =
      level.group a ++ if op.associativity = a then [op] else [] := by
  unfold push
  split <;> rename_i h <;> cases a <;> simp [group, h]

end Level

/-- Adds an operator to ascending levels: to the level of its precedence, which is
opened in its place if there is none. -/
def insertOperator (op : Operator) : List Level → List Level
  | [] => [(Level.empty op.precedence).push op]
  | level :: rest =>
    if op.precedence < level.precedence then
      (Level.empty op.precedence).push op :: level :: rest
    else if op.precedence = level.precedence then level.push op :: rest
    else level :: insertOperator op rest

/-- **The precedence levels of a table**, loosest first. -/
def levels (table : OperatorTable) : List Level :=
  table.operators.foldl (fun levels op => insertOperator op levels) []

end OperatorTable

end Fixity
