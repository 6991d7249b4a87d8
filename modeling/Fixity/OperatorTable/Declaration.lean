import Fixity.OperatorTable
import Fixity.Text.Blank
import Fixity.Text.Lines

/-!
# Tables as text

A table is written with one declaration on a line: a symbol, a precedence and an
associativity, separated by blanks (`OperatorTable.text`).  Reading passes over blank
lines and lines that start with a hash sign, takes the rest as declarations in order,
and validates the table it gets (`OperatorTable.ofText`).

A line with another number of fields, or with a precedence that is no 32-bit integer,
is malformed; the associativity is looked at after that.  The first faulty line wins
over every later one and over everything that validation finds.
-/

namespace Fixity.OperatorTable

open Text

/-- The declarations of a table, one on each line. -/
def text (table : OperatorTable) : String :=
  "\n".intercalate (table.operators.map Operator.text)

/-- Whether a trimmed line declares nothing. -/
def isPassedOver : List Char → Bool
  | [] => true
  | c :: _ => c = '#'

/-- The operator that three fields declare. -/
def ofFields (malformed : Error) : List (List Char) → Except Error Operator
  | [symbol, precedence, associativity] =>
    match readInt32? precedence with
    | none => .error malformed
    | some precedence =>
      match Associativity.ofText? (String.ofList associativity) with
      | none => .error (.notAnAssociativity (String.ofList associativity))
      | some associativity => .ok ⟨String.ofList symbol, precedence, associativity⟩
  | _ => .error malformed

/-- The operators that numbered and trimmed lines declare. -/
def ofLines : List (Nat × List Char) → Except Error (List Operator)
  | [] => .ok []
  | (number, line) :: rest =>
    if isPassedOver line then ofLines rest
    else
      (ofFields (.malformed number (String.ofList line)) (fields line)).bind fun op =>
        (ofLines rest).map (op :: ·)

/-- **The table that a text declares**, if it is valid. -/
def ofText (text : String) : Except Error OperatorTable :=
  (ofLines ((numberedLines text.toList).map fun line => (line.1, trim line.2))).bind
    fun operators =>
      (OperatorTable.mk operators).validate.map fun _ => ⟨operators⟩

end Fixity.OperatorTable
