import Mathlib.Data.List.Perm.Basic
import Fixity.Proofs.Parsing
import Fixity.Proofs.WellFormed

/-! # Where the tokens go

Parsing loses no token, doubles none and puts none in another place.  A program is listed
from left to right as its **atoms**: names, literals and the signs of functions
(`Program.atoms`).  Words and literals stand in the program in the order of the tokens.
Operators move, since an operation lists its operator first, but none is lost and none is
added.  Every other token is a mark, and there are as many marks of each kind as the
program has bindings, lines and functions (`Language.tokens_accounted`).

Tokens that make up atoms in this way are a relation, `Accounts`, which is closed under
everything that the grammar does: phrases one behind the other, parentheses, operations,
functions, bindings and line breaks.
-/
namespace Fixity

/-! ## Atoms -/

/-- **An atom of a program.** -/
inductive Atom where
  /-- A name. -/
  | name (x : Name)
  /-- A literal. -/
  | literal (value : Literal)
  /-- The sign that a function starts with. -/
  | function
  deriving DecidableEq, Repr

namespace Atom

/-- The token that a word or a literal is. -/
def leaf? : Atom → Option Token
  | name (.word w) => some (.word w)
  | literal (.integer digits) => some (.integer digits)
  | literal (.string text) => some (.string text)
  | _ => none

/-- The symbol of a name that is an operator. -/
def operator? : Atom → Option String
  | name (.operator s) => some s
  | _ => none

end Atom

namespace Expr

mutual

/-- **The atoms of an expression**: a function before its arguments, and a parameter before
the body. -/
def atoms : Expr → List Atom
  | name x => [.name x]
  | literal value => [.literal value]
  | call function arguments => function.atoms ++ atomsAll arguments
  | lambda parameter body => .function :: .name parameter :: body.atoms

/-- The atoms of expressions in order. -/
def atomsAll : List Expr → List Atom
  | [] => []
  | e :: es => e.atoms ++ atomsAll es

end

/-- The atoms of an operator's use. -/
theorem atoms_operation (s : String) (left right : Expr) :
    (call (name (.operator s)) [left, right]).atoms =
      .name (.operator s) :: (left.atoms ++ right.atoms) := by
  simp [atoms, atomsAll]

end Expr

/-- The atoms of a binding: its name, then its value. -/
def Binding.atoms (b : Binding) : List Atom := .name b.name :: b.value.atoms

namespace Program

/-- **The atoms of a program.** -/
def atoms (p : Program) : List Atom := p.bindings.flatMap Binding.atoms

/-- The words and literals of a program, as tokens. -/
def leaves (p : Program) : List Token := p.atoms.filterMap Atom.leaf?

/-- The operators of a program, infix or not. -/
def operators (p : Program) : List String := p.atoms.filterMap Atom.operator?

/-- The number of functions in a program. -/
def functions (p : Program) : Nat := p.atoms.count .function

end Program

namespace Token

/-- Whether a token is a word that is no keyword, or a literal. -/
def isLeaf : Token → Bool
  | word w => w ≠ "let"
  | integer _ => true
  | string _ => true
  | _ => false

/-- The declared operator that a token is. -/
def operator? (table : OperatorTable) (t : Token) : Option String :=
  t.symbol?.filter table.declares

/-- The tokens that are neither words nor literals nor operators. -/
def marks : List Token :=
  [.word "let", .newline, .symbol "=", .symbol "->", .symbol "\\", .symbol "(", .symbol ")"]

@[simp] theorem symbol_mem_marks {s : String} :
    .symbol s ∈ marks ↔ s ∈ OperatorTable.punctuation := by
  simp [marks, OperatorTable.punctuation]

theorem isLeaf_of_mem_marks : ∀ t ∈ marks, t.isLeaf = false := by decide

/-- No mark is a declared operator. -/
theorem operator?_of_mem_marks {table : OperatorTable} (hv : table.Valid) {t : Token}
    (ht : t ∈ marks) : t.operator? table = none := by
  rw [operator?, Option.filter_eq_none_iff]
  intro s hs hdeclares
  rw [symbol?_eq_some.mp hs, symbol_mem_marks] at ht
  exact hv.notMem_punctuation hdeclares ht

end Token

/-! ## Contents -/

/-- **Tokens that hold atoms**: the words and literals in their order, the operators in any
order.  What is left are marks. -/
structure Contents (table : OperatorTable) (ts : List Token) (atoms : List Atom) : Prop where
  leaves : ts.filter Token.isLeaf = atoms.filterMap Atom.leaf?
  operators : (ts.filterMap (Token.operator? table)).Perm (atoms.filterMap Atom.operator?)
  known : ∀ t ∈ ts, t.isLeaf = true ∨ (t.operator? table).isSome = true ∨ t ∈ Token.marks

namespace Contents
variable {table : OperatorTable} {ts us : List Token} {as bs : List Atom} {t : Token} {a : Atom}

theorem nil : Contents table [] [] := ⟨rfl, .refl _, fun _ => nofun⟩

/-- Phrases one behind the other. -/
theorem append (h : Contents table ts as) (h' : Contents table us bs) :
    Contents table (ts ++ us) (as ++ bs) where
  leaves := by rw [List.filter_append, List.filterMap_append, h.leaves, h'.leaves]
  operators := by
    rw [List.filterMap_append, List.filterMap_append]
    exact h.operators.append h'.operators
  known := List.forall_mem_append.mpr ⟨h.known, h'.known⟩

/-- A word or a literal. -/
theorem leaf (ht : t.isLeaf = true) (ha : a.leaf? = some t) : Contents table [t] [a] := by
  refine ⟨?_, ?_, List.forall_mem_singleton.mpr (Or.inl ht)⟩
  · rw [List.filter_cons_of_pos ht, List.filterMap_cons_some ha]
    rfl
  · have hsymbol : t.operator? table = none := by
      cases t <;> first | rfl | cases ht
    have hoperator : a.operator? = none := by
      cases a with
      | name x => cases x <;> first | rfl | cases ha
      | literal value => rfl
      | function => rfl
    rw [List.filterMap_cons_none hsymbol, List.filterMap_cons_none hoperator]
    exact .refl _

theorem operator {s : String} (hs : table.declares s = true) :
    Contents table [.symbol s] [.name (.operator s)] := by
  have hop : Token.operator? table (.symbol s) = some s := by
    simp [Token.operator?, Token.symbol?, hs]
  refine ⟨rfl, ?_, List.forall_mem_singleton.mpr (Or.inr (Or.inl ?_))⟩
  · rw [List.filterMap_cons_some hop]
    exact .refl _
  · rw [hop]
    rfl

/-- A mark holds no atom but the sign of a function. -/
theorem mark (hv : table.Valid) (ht : t ∈ Token.marks) (has : ∀ a ∈ as, a = .function) :
    Contents table [t] as := by
  have hleaves : as.filterMap Atom.leaf? = [] :=
    List.filterMap_eq_nil_iff.mpr fun a ha => has a ha ▸ rfl
  have hoperators : as.filterMap Atom.operator? = [] :=
    List.filterMap_eq_nil_iff.mpr fun a ha => has a ha ▸ rfl
  refine ⟨?_, ?_, List.forall_mem_singleton.mpr (Or.inr (Or.inr ht))⟩
  · rw [List.filter_cons_of_neg (by simp [Token.isLeaf_of_mem_marks t ht]), hleaves]
    rfl
  · rw [List.filterMap_cons_none (Token.operator?_of_mem_marks hv ht), hoperators]
    exact .refl _

end Contents

/-! ## Accounts -/

/-- **Tokens that make up atoms** in some bindings and with some line breaks: they hold the
atoms, and there are as many marks of each kind as there should be. -/
structure Accounts (table : OperatorTable) (ts : List Token) (atoms : List Atom)
    (bindings breaks : Nat) : Prop where
  contents : Contents table ts atoms
  lets : ts.count (.word "let") = bindings
  equals : ts.count (.symbol "=") = bindings
  newlines : ts.count .newline = breaks
  backslashes : ts.count (.symbol "\\") = atoms.count .function
  arrows : ts.count (.symbol "->") = atoms.count .function
  parentheses : ts.count (.symbol "(") = ts.count (.symbol ")")

namespace Accounts
variable {table : OperatorTable} {ts us : List Token} {as bs : List Atom} {n m n' m' : Nat}

theorem nil : Accounts table [] [] 0 0 := ⟨.nil, rfl, rfl, rfl, rfl, rfl, rfl⟩

theorem append (h : Accounts table ts as n m) (h' : Accounts table us bs n' m') :
    Accounts table (ts ++ us) (as ++ bs) (n + n') (m + m') where
  contents := h.contents.append h'.contents
  lets := by rw [List.count_append, h.lets, h'.lets]
  equals := by rw [List.count_append, h.equals, h'.equals]
  newlines := by rw [List.count_append, h.newlines, h'.newlines]
  backslashes := by rw [List.count_append, List.count_append, h.backslashes, h'.backslashes]
  arrows := by rw [List.count_append, List.count_append, h.arrows, h'.arrows]
  parentheses := by rw [List.count_append, List.count_append, h.parentheses, h'.parentheses]

/-- One token that is no mark, for an atom that has none. -/
theorem single {t : Token} {a : Atom} (h : Contents table [t] [a]) (ht : t ∉ Token.marks)
    (ha : a ≠ .function) : Accounts table [t] [a] 0 0 := by
  have hcount : ∀ x ∈ Token.marks, [t].count x = 0 := by
    intro x hx
    refine List.count_eq_zero.mpr fun hmem => ht ?_
    rwa [← List.mem_singleton.mp hmem]
  have hfunction : [a].count .function = 0 :=
    List.count_eq_zero.mpr fun hmem => ha (List.mem_singleton.mp hmem).symm
  exact {
    contents := h
    lets := hcount _ (by decide)
    equals := hcount _ (by decide)
    newlines := hcount _ (by decide)
    backslashes := (hcount _ (by decide)).trans hfunction.symm
    arrows := (hcount _ (by decide)).trans hfunction.symm
    parentheses := (hcount _ (by decide)).trans (hcount _ (by decide)).symm }

theorem word {w : String} (hw : w ≠ "let") :
    Accounts table [.word w] [.name (.word w)] 0 0 :=
  .single (.leaf (decide_eq_true hw) rfl) (by simp [Token.marks, hw]) nofun

theorem integer (digits : String) :
    Accounts table [.integer digits] [.literal (.integer digits)] 0 0 :=
  .single (.leaf rfl rfl) (by simp [Token.marks]) nofun

theorem string (text : String) :
    Accounts table [.string text] [.literal (.string text)] 0 0 :=
  .single (.leaf rfl rfl) (by simp [Token.marks]) nofun

theorem operator (hv : table.Valid) {s : String} (hs : table.declares s = true) :
    Accounts table [.symbol s] [.name (.operator s)] 0 0 := by
  refine .single (.operator hs) ?_ nofun
  rw [Token.symbol_mem_marks]
  exact hv.notMem_punctuation hs

/-- The operator of an operation stands between its operands, and is listed before them. -/
theorem operation (hv : table.Valid) {s : String} (hs : table.declares s = true)
    (h : Accounts table ts as n m) (h' : Accounts table us bs n' m') :
    Accounts table (ts ++ .symbol s :: us) (.name (.operator s) :: (as ++ bs)) (n + n')
      (m + m') := by
  have hall := h.append ((operator hv hs).append h')
  rw [Nat.zero_add, Nat.zero_add] at hall
  have hmoved : (as ++ .name (.operator s) :: bs).Perm (.name (.operator s) :: (as ++ bs)) :=
    List.perm_middle
  have hleaves : (as ++ .name (.operator s) :: bs).filterMap Atom.leaf? =
      (.name (.operator s) :: (as ++ bs)).filterMap Atom.leaf? := by
    rw [List.filterMap_append, List.filterMap_cons_none rfl, List.filterMap_cons_none rfl,
      List.filterMap_append]
  exact { hall with
    contents := ⟨hall.contents.leaves.trans hleaves,
      hall.contents.operators.trans (hmoved.filterMap _), hall.contents.known⟩
    backslashes := hall.backslashes.trans (hmoved.count_eq _)
    arrows := hall.arrows.trans (hmoved.count_eq _) }

/-- Parentheses around a phrase. -/
theorem enclose (hv : table.Valid) (h : Accounts table ts as n m) :
    Accounts table (.symbol "(" :: (ts ++ [.symbol ")"])) as n m where
  contents := by
    have hopen : Contents table [.symbol "("] [] := .mark hv (by decide) nofun
    have hclose : Contents table [.symbol ")"] [] := .mark hv (by decide) nofun
    simpa using hopen.append (h.contents.append hclose)
  lets := by simpa using h.lets
  equals := by simpa using h.equals
  newlines := by simpa using h.newlines
  backslashes := by simpa using h.backslashes
  arrows := by simpa using h.arrows
  parentheses := by simpa using h.parentheses

/-- A function, with a backslash and an arrow. -/
theorem lambda (hv : table.Valid) {w : String} (hw : w ≠ "let")
    (h : Accounts table ts as n m) :
    Accounts table (.symbol "\\" :: .word w :: .symbol "->" :: ts)
      (.function :: .name (.word w) :: as) n m where
  contents := by
    have hsign : Contents table [.symbol "\\"] [.function] := .mark hv (by decide) (by simp)
    have harrow : Contents table [.symbol "->"] [] := .mark hv (by decide) nofun
    exact hsign.append ((word hw).contents.append (harrow.append h.contents))
  lets := by simpa [hw] using h.lets
  equals := by simpa using h.equals
  newlines := by simpa using h.newlines
  backslashes := by simpa using h.backslashes
  arrows := by simpa using h.arrows
  parentheses := by simpa using h.parentheses

/-- A binding, with a keyword and an equals sign. -/
theorem binding (hv : table.Valid) (h : Accounts table ts as 0 0) (h' : Accounts table us bs 0 0) :
    Accounts table (.word "let" :: (ts ++ .symbol "=" :: us)) (as ++ bs) 1 0 where
  contents := by
    have hlet : Contents table [.word "let"] [] := .mark hv (by decide) nofun
    have hequals : Contents table [.symbol "="] [] := .mark hv (by decide) nofun
    exact hlet.append (h.contents.append (hequals.append h'.contents))
  lets := by simp [h.lets, h'.lets]
  equals := by simp [h.equals, h'.equals]
  newlines := by simp [h.newlines, h'.newlines]
  backslashes := by simp [h.backslashes, h'.backslashes]
  arrows := by simp [h.arrows, h'.arrows]
  parentheses := by simp [h.parentheses, h'.parentheses]

theorem newline (hv : table.Valid) (h : Accounts table ts as n m) :
    Accounts table (.newline :: ts) as n (m + 1) where
  contents := by
    have hbreak : Contents table [.newline] [] := .mark hv (by decide) nofun
    exact hbreak.append h.contents
  lets := by simpa using h.lets
  equals := by simpa using h.equals
  newlines := by simpa using h.newlines
  backslashes := by simpa using h.backslashes
  arrows := by simpa using h.arrows
  parentheses := by simpa using h.parentheses

end Accounts

namespace Grammar
variable {table : OperatorTable} {ts : List Token}

/-- The tokens make up the value of a phrase; behind tokens that make up what stands before
tails, those of the tails make up their value. -/
def Phrase.MadeOf (table : OperatorTable) (ts : List Token) : Phrase → Prop
  | .name x => Accounts table ts [.name x] 0 0
  | .term e => Accounts table ts e.atoms 0 0
  | .arguments es => Accounts table ts (Expr.atomsAll es) 0 0
  | .operation _ e => Accounts table ts e.atoms 0 0
  | .tails _ _ left e =>
    ∀ us, Accounts table us left.atoms 0 0 → Accounts table (us ++ ts) e.atoms 0 0
  | .expression e => Accounts table ts e.atoms 0 0
  | .binding b => Accounts table ts b.atoms 1 0
  | .further bs => Accounts table ts (bs.flatMap Binding.atoms) bs.length bs.length
  | .program p => Accounts table ts p.atoms p.bindings.length (p.bindings.length - 1)

/-- **The tokens of a phrase make up its value.** -/
theorem Derives.madeOf {phrase : Phrase} (hv : table.Valid) (h : Derives table phrase ts) :
    phrase.MadeOf table ts := by
  induction h with
  | word hw => exact .word hw
  | enclosed hop =>
    exact (Accounts.operator hv (OperatorTable.declares_of_mem hop)).enclose hv
  | name _ ih => exact ih
  | integer => exact .integer _
  | string => exact .string _
  | group _ ih => exact ih.enclose hv
  | noArgument => exact .nil
  | argument _ _ ih ih' => exact ih.append ih'
  | single _ ih => exact ih
  | @call e e' es _ _ _ _ ih ih' =>
    show Accounts table _ (Expr.call e (e' :: es)).atoms 0 0
    rw [Expr.atoms]
    exact ih.append ih'
  | level _ _ ih ih' => exact ih' _ ih
  | noTail =>
    intro us hleft
    rwa [List.append_nil]
  | @leftTail level tighter left right e op ts us hop _ _ ih ih' =>
    intro vs hleft
    -- The operation of what stands before and the first operand is what the next tails follow.
    have hfirst := hleft.operation hv (OperatorTable.declares_of_mem hop.1) ih
    rw [← Expr.atoms_operation] at hfirst
    have hall := ih' _ hfirst
    rwa [List.append_assoc, List.cons_append] at hall
  | rightTail hop _ ih =>
    intro us hleft
    have hall := hleft.operation hv (OperatorTable.declares_of_mem hop.1) ih
    rwa [← Expr.atoms_operation] at hall
  | nonAssocTail hop _ ih =>
    intro us hleft
    have hall := hleft.operation hv (OperatorTable.declares_of_mem hop.1) ih
    rwa [← Expr.atoms_operation] at hall
  | lambda hw _ ih => exact ih.lambda hv hw
  | operation _ _ ih => exact ih
  | binding _ _ ih ih' => exact ih.binding hv ih'
  | noFurther => exact .nil
  | @further b bs ts us _ _ ih ih' =>
    have hall := (ih.append ih').newline hv
    rw [Nat.zero_add, Nat.add_comm 1] at hall
    exact hall
  | empty => exact .nil
  | @program b bs ts us _ _ ih ih' =>
    have hall := ih.append ih'
    rw [Nat.zero_add, Nat.add_comm 1] at hall
    exact hall

end Grammar

namespace Language

/-- **Every token is accounted for.**  The words and literals of the tokens are those of the
program, in order.  The declared operators among the tokens are the operators of the
program.  There is one keyword and one equals sign for each binding, a line break between
two bindings, a backslash and an arrow for each function, and as many opening as closing
parentheses; and there is nothing else. -/
theorem tokens_accounted (L : Language) {ts : List Token} {p : Program}
    (h : L.parse ts = .ok p) :
    ts.filter Token.isLeaf = p.leaves ∧
    (ts.filterMap (Token.operator? L.table)).Perm p.operators ∧
    ts.count (.word "let") = p.bindings.length ∧
    (ts ≠ [] → p.bindings.length = ts.count .newline + 1) ∧
    ts.count (.symbol "\\") = p.functions ∧
    ts.count (.symbol "->") = p.functions ∧
    ts.count (.symbol "=") = p.bindings.length ∧
    ts.count (.symbol "(") = ts.count (.symbol ")") ∧
    ∀ t ∈ ts, t.isLeaf = true ∨ (t.operator? L.table).isSome = true ∨ t ∈ Token.marks := by
  have hd := L.derives_of_parse h
  have hacc : Accounts L.table ts p.atoms p.bindings.length (p.bindings.length - 1) :=
    hd.madeOf L.valid
  have hlines : ts ≠ [] → p.bindings.length = ts.count .newline + 1 := by
    intro hne
    rw [hacc.newlines]
    cases hd with
    | empty => exact absurd rfl hne
    | program _ _ => rfl
  exact ⟨hacc.contents.leaves, hacc.contents.operators, hacc.lets, hlines, hacc.backslashes,
    hacc.arrows, hacc.equals, hacc.parentheses, hacc.contents.known⟩

/-- Two lines.  In the first one, the sum is listed before the product whose sign it
follows. -/
theorem tokens_accounted_standard :
    let ts : List Token := [.word "let", .symbol "(", .symbol "+", .symbol ")", .symbol "=",
      .symbol "\\", .word "x", .symbol "->", .word "a", .symbol "*", .word "x", .symbol "+",
      .integer "1", .newline, .word "let", .word "b", .symbol "=", .string "s"]
    ∃ p : Program, standard.parse ts = .ok p ∧ ts.filter Token.isLeaf = p.leaves ∧
      p.leaves = [.word "x", .word "a", .word "x", .integer "1", .word "b", .string "s"] ∧
      (ts.filterMap (Token.operator? standard.table)).Perm p.operators ∧
      p.operators = ["+", "+", "*"] ∧ p.bindings.length = ts.count .newline + 1 ∧
      ts.count (.symbol "\\") = p.functions := by
  intro ts
  have hp : standard.parse ts = .ok ⟨[⟨.operator "+", .lambda (.word "x") (.operation "+"
      (.operation "*" (.name (.word "a")) (.name (.word "x"))) (.literal (.integer "1")))⟩,
      ⟨.word "b", .literal (.string "s")⟩]⟩ := by decide +kernel
  obtain ⟨hleaves, hoperators, -, hlines, hfunctions, -⟩ := tokens_accounted standard hp
  exact ⟨_, hp, hleaves, by decide +kernel, hoperators, by decide +kernel,
    hlines (List.cons_ne_nil _ _), hfunctions⟩

end Language

end Fixity
