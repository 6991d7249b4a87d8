import Fixity.Directory
import Fixity.Expr.Outline
import Fixity.Expr.Printer
import Fixity.Language
import Fixity.OperatorTable.Declaration
import Fixity.Source

/-!
# The command

The command reads a source file and prints the program it holds.  Options choose an
operator table (`-o`, `--operators`) and print the tokens (`--tokens`) or the outline of
the program (`--ast`) instead.

The table is read first, then the source is read, scanned and parsed; the first of these
that fails is reported, with what it was doing (`Command.Error`).  What the command does
is a function of its arguments and of the files (`Command.run`).
-/

namespace Fixity.Command

/-! ## Arguments -/

/-- What the command is asked to do. -/
structure Options where
  /-- The source file. -/
  input : Option String
  /-- The file of the operator table. -/
  operators : Option String
  /-- Print the outline of the program. -/
  outline : Bool
  /-- Print the tokens. -/
  tokens : Bool
  deriving DecidableEq, Repr

/-- No option is given. -/
def Options.none : Options := ⟨.none, .none, false, false⟩

/-- The rest of a text behind a given beginning. -/
def behind? (beginning text : List Char) : Option String :=
  if beginning.isPrefixOf text then some (String.ofList (text.drop beginning.length))
  else Option.none

/-- One argument that does not need the next one. -/
def Options.addArgument (options : Options) (argument : String) : Option Options :=
  if argument = "--ast" then some { options with outline := true }
  else if argument = "--tokens" then some { options with tokens := true }
  else if let some file := behind? "--operators=".toList argument.toList then
    some { options with operators := some file }
  else if let some file := behind? "-o=".toList argument.toList then
    some { options with operators := some file }
  else if let some file := behind? "-o".toList argument.toList then
    some { options with operators := some file }
  else if argument.toList.head? = some '-' ∧ argument ≠ "-" then Option.none
  else if options.input.isSome then Option.none
  else some { options with input := some argument }

/-- The options that arguments give on top of others. -/
def Options.addArguments (options : Options) : List String → Option Options
  | [] => some options
  | [argument] =>
    if argument = "-o" ∨ argument = "--operators" then Option.none
    else options.addArgument argument
  | argument :: file :: rest =>
    if argument = "-o" ∨ argument = "--operators" then
      { options with operators := some file }.addArguments rest
    else (options.addArgument argument).bind (·.addArguments (file :: rest))

/-! ## Errors -/

/-- Why the command failed. -/
inductive Error where
  /-- The file of the operator table cannot be read. -/
  | unreadableTable (file : String) (cause : ReadError)
  /-- The operator table is not valid. -/
  | invalidTable (file : String) (error : OperatorTable.Error)
  /-- The source file cannot be read. -/
  | unreadableSource (file : String) (cause : ReadError)
  /-- The source cannot be scanned. -/
  | scanning (error : Source.Error)
  /-- The source cannot be parsed. -/
  | parsing (file : String) (error : ParseError)
  deriving DecidableEq, Repr

/-- A report of what was being done and of the cause of its failure. -/
def causedBy (context cause : String) : String :=
  "Error: " ++ context ++ "\n\nCaused by:\n    " ++ cause ++ "\n"

/-- What the command reports for an error. -/
def Error.report : Error → String
  | unreadableTable file cause => causedBy ("reading operator table " ++ file) cause.message
  | invalidTable file error => causedBy ("invalid operator table " ++ file) error.message
  | unreadableSource file cause => causedBy ("reading " ++ file) cause.message
  | scanning error => "Error: " ++ error.message ++ "\n"
  | parsing file error => causedBy ("parsing " ++ file) error.message

/-! ## Running -/

/-- The text that each path leads to, or why it cannot be read. -/
abbrev Files := String → Except ReadError String

/-- The language that the options choose. -/
def language (files : Files) : Option String → Except Error Language
  | .none => .ok .standard
  | some file =>
    match files file with
    | .error cause => .error (.unreadableTable file cause)
    | .ok text =>
      ((OperatorTable.ofText text).bind Language.ofTable).mapError (.invalidTable file)

/-- What is printed for the tokens of a source file. -/
def output (options : Options) (L : Language) (file : String) (tokens : List Token) :
    Except Error (List String) :=
  if options.tokens then .ok (tokens.map Token.description)
  else
    match L.parse tokens with
    | .error error => .error (.parsing file error)
    | .ok program => .ok (if options.outline then program.outline else [program.print])

/-- The lines that the command prints for a source file. -/
def lines (options : Options) (files : Files) (file : String) : Except Error (List String) :=
  (language files options.operators).bind fun L =>
    match files file with
    | .error cause => .error (.unreadableSource file cause)
    | .ok source =>
      match Source.tokens source with
      | .error error => .error (.scanning error)
      | .ok tokens => output options L file tokens

/-- What a run of the command leaves behind. -/
structure Report where
  /-- The exit code. -/
  code : Nat
  /-- What it printed. -/
  output : String
  /-- What it reported about its failure. -/
  errors : String
  deriving DecidableEq, Repr

/-- How the command is used. -/
def usage : String := "Usage: fixity [-o <OPERATORS>] [--ast] [--tokens] <INPUT>\n"

/-- **Runs the command** on arguments and files. -/
def run (files : Files) (arguments : List String) : Report :=
  match (Options.none.addArguments arguments).bind fun options =>
      options.input.map fun file => (options, file) with
  | .none => ⟨2, "", usage⟩
  | some (options, file) =>
    match lines options files file with
    | .error error => ⟨1, "", error.report⟩
    | .ok lines => ⟨0, String.join (lines.map (· ++ "\n")), ""⟩

/-- The files that a run on arguments may read. -/
def filesRead (arguments : List String) : List String :=
  match Options.none.addArguments arguments with
  | .none => []
  | some options => options.operators.toList ++ options.input.toList

end Fixity.Command
