import Fixity.Expr
import Fixity.Text.Quoted

/-!
# Outlines

The structure of a program, spelled out over many lines: every constructor with its
fields, one to a line, indented by four blanks and followed by a comma.  A list without
items is written on one line.
-/

namespace Fixity

namespace Outline

/-- Adds a text in front of the first line. -/
def leadIn (text : String) : List String → List String
  | [] => []
  | line :: rest => (text ++ line) :: rest

/-- Adds a comma behind the last line. -/
def addComma : List String → List String
  | [] => []
  | [line] => [line ++ ","]
  | line :: rest => line :: addComma rest

/-- The lines of an item inside a block, behind the name of its field. -/
def item (field : String) (lines : List String) : List String :=
  (addComma (leadIn field lines)).map ("    " ++ ·)

/-- The lines of a block of items. -/
def block (opening : String) (items : List (List String)) (closing : String) : List String :=
  if items.isEmpty then [opening ++ closing] else opening :: items.flatten ++ [closing]

/-- The lines of a constructor with one argument. -/
def wrapped (constructor : String) (lines : List String) : List String :=
  block (constructor ++ "(") [item "" lines] ")"

end Outline

open Outline

/-- The outline of a name. -/
def Name.outline : Name → List String
  | word text => wrapped "Bare" [Text.quoted text]
  | operator symbol => wrapped "Symbol" [Text.quoted symbol]

/-- The outline of a literal. -/
def Literal.outline : Literal → List String
  | integer digits => wrapped "Integer" [Text.quoted digits]
  | string text => wrapped "String" [Text.quoted text]

namespace Expr

mutual

/-- **The outline of an expression.** -/
def outline : Expr → List String
  | name x => wrapped "Identifier" x.outline
  | literal value => wrapped "Literal" value.outline
  | call function arguments =>
    wrapped "Call" (block "Call \x7b"
      [item "function: " function.outline,
       item "arguments: " (block "[" (outlineItems arguments) "]")] "\x7d")
  | lambda parameter body =>
    wrapped "Lambda" (block "Lambda \x7b"
      [item "argument: " parameter.outline, item "body: " body.outline] "\x7d")

/-- The outlines of the items of a list. -/
def outlineItems : List Expr → List (List String)
  | [] => []
  | expr :: rest => item "" expr.outline :: outlineItems rest

end

end Expr

/-- The outline of a binding. -/
def Binding.outline (binding : Binding) : List String :=
  wrapped "Binding" (block "Binding \x7b"
    [item "name: " binding.name.outline, item "value: " binding.value.outline] "\x7d")

/-- **The outline of a program.** -/
def Program.outline (program : Program) : List String :=
  block "Program \x7b"
    [item "statements: "
      (block "[" (program.bindings.map fun binding => item "" binding.outline) "]")] "\x7d"

end Fixity
