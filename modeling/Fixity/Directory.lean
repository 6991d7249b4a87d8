import Fixity.Text.Pieces

/-!
# Files and paths

A directory holds the texts of files, and `Directory.read` finds the text that a path
leads to, or says why there is none (`ReadError`).

A path is a row of names with slashes between them.  It is followed name by name from
the directory, or from the root where it starts with a slash.  An empty name and a dot
stay where they are and two dots lead to the parent; any name, an empty one too, can
only follow a directory.  Of the directories above, and of the root, nothing else is
known than that they are directories: no name is found there.
-/

namespace Fixity

/-- Why a file cannot be read. -/
inductive ReadError where
  /-- There is nothing of that name. -/
  | notFound
  /-- A name stands behind one that is not a directory. -/
  | notADirectory
  /-- The path leads to a directory. -/
  | isADirectory
  /-- A name, or the whole path, has too many bytes. -/
  | nameTooLong
  /-- The file may not be read. -/
  | forbidden
  /-- The file does not hold a text. -/
  | notText
  /-- Any other cause, in words. -/
  | other (cause : String)
  deriving DecidableEq, Repr

/-- The words for why a file cannot be read. -/
def ReadError.message : ReadError → String
  | notFound => "No such file or directory (os error 2)"
  | notADirectory => "Not a directory (os error 20)"
  | isADirectory => "Is a directory (os error 21)"
  | nameTooLong => "File name too long (os error 36)"
  | forbidden => "Permission denied (os error 13)"
  | notText => "stream did not contain valid UTF-8"
  | other cause => cause

/-- The names of a path, which are divided by slashes. -/
def pathNames (path : String) : List String :=
  (Text.pieces (· == '/') path.toList).map String.ofList

/-- **A directory**: the text of every file below it, with the names that lead there. -/
structure Directory where
  /-- The files. -/
  files : List (List String × String)
  deriving DecidableEq, Repr

/-- What a path leads to. -/
inductive Location where
  /-- A file with its text. -/
  | file (text : String)
  /-- The directory that the names lead to, or the directory itself. -/
  | inside (names : List String)
  /-- A directory above, or the root. -/
  | outside
  deriving DecidableEq, Repr

namespace Directory
variable (d : Directory)

/-- The directory of files that are given by their paths. -/
def ofFiles (files : List (String × String)) : Directory :=
  ⟨files.map fun file => (pathNames file.1, file.2)⟩

/-- What the names lead to. -/
def find (names : List String) : Except ReadError Location :=
  match d.files.lookup names with
  | some text => .ok (.file text)
  | none =>
    if d.files.any fun file => names.isPrefixOf file.1 then .ok (.inside names)
    else .error .notFound

/-- Follows one name. -/
def step (l : Location) (name : String) : Except ReadError Location :=
  match l with
  | .file _ => .error .notADirectory
  | .outside =>
    if 255 < name.utf8ByteSize then .error .nameTooLong
    else if name = "" ∨ name = "." ∨ name = ".." then .ok .outside
    else .error .notFound
  | .inside names =>
    if 255 < name.utf8ByteSize then .error .nameTooLong
    else if name = "" ∨ name = "." then .ok (.inside names)
    else if name = ".." then .ok (if names.isEmpty then .outside else .inside names.dropLast)
    else d.find (names ++ [name])

/-- Follows names, up to the first that leads nowhere. -/
def follow (l : Location) : List String → Except ReadError Location
  | [] => .ok l
  | name :: names => (d.step l name).bind fun next => follow next names

/-- Where the names of a path are followed from. -/
def start (path : String) : Location :=
  if path.toList.head? = some '/' then .outside else .inside []

/-- **Reads the file that a path leads to.** -/
def read (path : String) : Except ReadError String :=
  if path = "" then .error .notFound
  else if 4096 ≤ path.utf8ByteSize then .error .nameTooLong
  else
    match d.follow (start path) (pathNames path) with
    | .ok (.file text) => .ok text
    | .ok _ => .error .isADirectory
    | .error cause => .error cause

/-- Names are followed one after another. -/
theorem follow_append (l : Location) (names more : List String) :
    d.follow l (names ++ more) = (d.follow l names).bind fun next => d.follow next more := by
  induction names generalizing l with
  | nil => rfl
  | cons name names ih =>
    rw [List.cons_append, follow, follow]
    cases d.step l name with
    | error cause => rfl
    | ok next => exact ih next

/-- A file has nothing below it. -/
theorem follow_file_cons (text name : String) (names : List String) :
    d.follow (.file text) (name :: names) = .error .notADirectory := rfl

/-- A dot stays in a directory. -/
theorem follow_inside_dot (names more : List String) :
    d.follow (.inside names) ("." :: more) = d.follow (.inside names) more := by
  have h : ¬ 255 < ".".utf8ByteSize := by decide
  simp [follow, step, h, Except.bind]

end Directory

end Fixity
