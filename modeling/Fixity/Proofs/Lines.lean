import Mathlib.Data.List.Forall2
import Fixity.Proofs.Parsing

/-! # Programs line by line

A program is its lines.  No phrase that belongs to a binding holds a line break
(`Grammar.Derives.newline_notMem`), so cutting the tokens at their line breaks gives the
bindings one by one, and each line is parsed as if it stood alone
(`Language.parse_eq_ok_iff_lines`).

Tokens are put together from lines by `Token.furtherLines`, which is what follows the
first line.  Cutting is `List.splitOn`.
-/
namespace Fixity

namespace Token
variable {line ts : List Token} {lines : List (List Token)}

/-- The tokens of further lines, each behind a line break. -/
def furtherLines (lines : List (List Token)) : List Token := lines.flatMap (.newline :: ·)

@[simp] theorem furtherLines_nil : furtherLines [] = [] := rfl

@[simp] theorem furtherLines_cons (line : List Token) (lines : List (List Token)) :
    furtherLines (line :: lines) = .newline :: (line ++ furtherLines lines) := rfl

theorem intercalate_eq_furtherLines (line : List Token) (lines : List (List Token)) :
    [newline].intercalate (line :: lines) = line ++ furtherLines lines := by
  induction lines generalizing line with
  | nil => simp
  | cons next lines ih =>
    rw [List.intercalate_cons_cons, ih, furtherLines_cons]
    simp

/-- Tokens are the lines that they are cut into. -/
theorem eq_of_splitOn (h : ts.splitOn newline = line :: lines) :
    ts = line ++ furtherLines lines := by
  rw [← intercalate_eq_furtherLines, ← h, List.intercalate_splitOn]

/-- Lines that hold no line break are cut out again. -/
theorem splitOn_lines (hline : newline ∉ line) (hlines : ∀ l ∈ lines, newline ∉ l) :
    (line ++ furtherLines lines).splitOn newline = line :: lines := by
  rw [← intercalate_eq_furtherLines]
  exact List.splitOn_intercalate _ (List.forall_mem_cons.mpr ⟨hline, hlines⟩) (List.cons_ne_nil _ _)

end Token

namespace Grammar
variable {table : OperatorTable} {ts us : List Token} {b : Binding} {bs : List Binding}

/-- A phrase of one line holds no line break. -/
theorem Derives.newline_notMem {phrase : Phrase} (h : Derives table phrase ts) :
    match phrase with
    | .further _ | .program _ => True
    | _ => .newline ∉ ts := by
  induction h with
  | name h ih => exact ih
  | operation _ h ih => exact ih
  | _ => simp_all

/-- The tokens are a binding. -/
def BindingLine (table : OperatorTable) (line : List Token) (b : Binding) : Prop :=
  Derives table (.binding b) line

theorem BindingLine.newline_notMem {lines : List (List Token)}
    (h : List.Forall₂ (BindingLine table) lines bs) : ∀ line ∈ lines, .newline ∉ line := by
  induction h with
  | nil => simp
  | cons hb _ ih => exact List.forall_mem_cons.mpr ⟨Derives.newline_notMem hb, ih⟩

/-- Bindings on further lines are further lines that are bindings. -/
theorem derives_further_iff : Derives table (.further bs) us ↔
    ∃ lines, us = Token.furtherLines lines ∧ List.Forall₂ (BindingLine table) lines bs := by
  constructor
  · intro h
    induction bs generalizing us with
    | nil =>
      cases h
      exact ⟨[], rfl, .nil⟩
    | cons b bs ih =>
      cases h with
      | @further _ _ line us hb hs =>
        obtain ⟨lines, rfl, hlines⟩ := ih hs
        exact ⟨line :: lines, rfl, .cons hb hlines⟩
  · rintro ⟨lines, rfl, h⟩
    induction h with
    | nil => exact .noFurther
    | cons hb _ ih => exact .further hb ih

/-- **A program is empty, or each of its lines is one binding.** -/
theorem derives_program_iff : Derives table (.program ⟨bs⟩) ts ↔
    ts = [] ∧ bs = [] ∨ List.Forall₂ (BindingLine table) (ts.splitOn .newline) bs := by
  constructor
  · intro h
    cases h with
    | empty => exact Or.inl ⟨rfl, rfl⟩
    | @program b bs line us hb hs =>
      obtain ⟨lines, rfl, hlines⟩ := derives_further_iff.mp hs
      rw [Token.splitOn_lines (Derives.newline_notMem hb) (BindingLine.newline_notMem hlines)]
      exact Or.inr (.cons hb hlines)
  · rintro (⟨rfl, rfl⟩ | h)
    · exact .empty
    · obtain ⟨line, lines, hcut⟩ := List.exists_cons_of_ne_nil (List.splitOn_ne_nil .newline ts)
      rw [Token.eq_of_splitOn hcut]
      rw [hcut] at h
      cases h with
      | cons hb hlines => exact .program hb (derives_further_iff.mpr ⟨lines, rfl, hlines⟩)

/-- A program of one binding is the binding. -/
theorem derives_singleton_iff : Derives table (.program ⟨[b]⟩) ts ↔ BindingLine table ts b := by
  constructor
  · intro h
    cases h with
    | program hb hs =>
      cases hs
      rwa [List.append_nil]
  · intro h
    simpa using Derives.program h .noFurther

/-! ## The parsers of lines -/

/-- The parser of a line. -/
def lineParser (table : OperatorTable) : Parser Binding :=
  (statement table (expression table) : Rule [] Binding).eval 0 .nil

/-- The parser of a further line, with the line break before it. -/
def furtherParser (table : OperatorTable) : Parser Binding :=
  .map Prod.snd (.seq ((Rule.newline : Rule [] Unit).eval 0 .nil) (lineParser table))

/-- The parser of all lines. -/
def linesParser (table : OperatorTable) : Parser (List Binding) :=
  (Rule.sepBy (statement table (expression table)) .newline : Rule [] (List Binding)).eval 0 .nil

end Grammar

namespace Language
variable (L : Language)

/-- A program is read by the parser of all lines. -/
theorem parse_eq_lines (ts : List Token) : L.parse ts =
    ((Parser.toEnd (Grammar.linesParser L.table) (.start ts)).result).map Program.mk :=
  L.parse_eq_map ts

/-- A line that is parsed as one binding. -/
theorem parse_singleton_iff (line : List Token) (b : Binding) :
    L.parse line = .ok ⟨[b]⟩ ↔ Grammar.BindingLine L.table line b :=
  ⟨fun h => Grammar.derives_singleton_iff.mp (L.derives_of_parse h),
    fun h => L.parse_of_derives (Grammar.derives_singleton_iff.mpr h)⟩

/-- **Lines are parsed independently.**  A program is empty, or it has the bindings of its
lines in their order, each of which is a program of its own. -/
theorem parse_eq_ok_iff_lines (ts : List Token) (p : Program) :
    L.parse ts = .ok p ↔ ts = [] ∧ p.bindings = [] ∨
      List.Forall₂ (fun line b => L.parse line = .ok ⟨[b]⟩) (ts.splitOn .newline) p.bindings := by
  have hlines : (fun line b => L.parse line = .ok ⟨[b]⟩) = Grammar.BindingLine L.table := by
    funext line b
    exact propext (L.parse_singleton_iff line b)
  rw [hlines, ← Grammar.derives_program_iff]
  exact ⟨L.derives_of_parse, L.parse_of_derives⟩

end Language

end Fixity
