import Fixity.Proofs.Derivation
import Fixity.Proofs.Levels
import Fixity.Proofs.SourceLines

/-! # Well-formed programs

A tree may hold more than a source can say: a name that is no word, a literal that no
lexeme makes, an operator that is not declared, a call without arguments.  A program is
**well formed** when it holds nothing of this kind.  What is parsed from a source is
well formed, since every phrase over the tokens of a source is
(`Grammar.Derives.wellFormed`).
-/
namespace Fixity

/-- A word other than the keyword, or a declared operator. -/
def Name.WellFormed (table : OperatorTable) : Name → Prop
  | .word w => IsWord w.toList ∧ w ≠ "let"
  | .operator s => table.declares s = true

/-- A literal that can be spelled in one line. -/
def Literal.WellFormed : Literal → Prop
  | .integer digits => IsInteger digits.toList
  | .string text => IsStringBody text.toList ∧ '\n' ∉ text.toList

/-- **Well-formed expressions.** -/
inductive Expr.WellFormed (table : OperatorTable) : Expr → Prop where
  | name {x : Name} (h : x.WellFormed table) : WellFormed table (.name x)
  | literal {value : Literal} (h : value.WellFormed) : WellFormed table (.literal value)
  | call {function : Expr} {arguments : List Expr} (h : WellFormed table function)
      (hne : arguments ≠ []) (hs : ∀ e ∈ arguments, WellFormed table e) :
      WellFormed table (.call function arguments)
  | lambda {w : String} {body : Expr} (hw : (Name.word w).WellFormed table)
      (h : WellFormed table body) : WellFormed table (.lambda (.word w) body)

/-- A well-formed name bound to a well-formed expression. -/
structure Binding.WellFormed (table : OperatorTable) (b : Binding) : Prop where
  name : b.name.WellFormed table
  value : b.value.WellFormed table

/-- **Well-formed programs.** -/
def Program.WellFormed (table : OperatorTable) (p : Program) : Prop :=
  ∀ b ∈ p.bindings, b.WellFormed table

namespace Expr.WellFormed
variable {table : OperatorTable}

theorem operation {s : String} {left right : Expr} (hs : table.declares s = true)
    (hl : left.WellFormed table) (hr : right.WellFormed table) :
    (Expr.operation s left right).WellFormed table := by
  refine .call (.name hs) (List.cons_ne_nil _ _) ?_
  simp only [List.forall_mem_cons]
  exact ⟨hl, hr, by simp⟩

end Expr.WellFormed

namespace Grammar
variable {table : OperatorTable} {ts : List Token}

/-- The value of a phrase is well formed; that of tails is if what stands before them
is. -/
def Phrase.WellFormed (table : OperatorTable) : Phrase → Prop
  | .name x => x.WellFormed table
  | .term e => e.WellFormed table
  | .arguments es => ∀ e ∈ es, e.WellFormed table
  | .operation _ e => e.WellFormed table
  | .tails _ _ left e => left.WellFormed table → e.WellFormed table
  | .expression e => e.WellFormed table
  | .binding b => b.WellFormed table
  | .further bs => ∀ b ∈ bs, b.WellFormed table
  | .program p => p.WellFormed table

/-- A word of a source that is no keyword. -/
theorem wellFormed_word (table : OperatorTable) {w : String} (h : Source.Holds (.word w))
    (hw : w ≠ "let") : (Name.word w).WellFormed table := by
  rcases h with h | ⟨h, -⟩
  · cases h
  · exact ⟨h, hw⟩

/-- **Phrases of a source are well formed.** -/
theorem Derives.wellFormed {phrase : Phrase} (h : Derives table phrase ts)
    (hts : ∀ t ∈ ts, Source.Holds t) : phrase.WellFormed table := by
  induction h with
  | word hw => exact wellFormed_word table (hts _ List.mem_cons_self) hw
  | enclosed hop => exact OperatorTable.declares_of_mem hop
  | name _ ih => exact .name (ih hts)
  | integer =>
    rcases hts _ List.mem_cons_self with h | ⟨h, -⟩
    · cases h
    · exact .literal h
  | string =>
    rcases hts _ List.mem_cons_self with h | ⟨h, hnl⟩
    · cases h
    · exact .literal ⟨h, hnl _ rfl⟩
  | group _ ih => exact ih (fun t ht => hts t (by simp [ht]))
  | noArgument => exact fun e he => nomatch he
  | argument _ _ ih ih' =>
    obtain ⟨hl, hr⟩ := List.forall_mem_append.mp hts
    exact List.forall_mem_cons.mpr ⟨ih hl, ih' hr⟩
  | single _ ih => exact ih hts
  | call _ _ ih ih' =>
    obtain ⟨hl, hr⟩ := List.forall_mem_append.mp hts
    exact .call (ih hl) (List.cons_ne_nil _ _) (ih' hr)
  | level _ _ ih ih' =>
    obtain ⟨hl, hr⟩ := List.forall_mem_append.mp hts
    exact ih' hr (ih hl)
  | noTail => exact id
  | leftTail hop _ _ ih ih' =>
    obtain ⟨hl, hr⟩ := List.forall_mem_append.mp (List.forall_mem_cons.mp hts).2
    intro hleft
    exact ih' hr (.operation (OperatorTable.declares_of_mem hop.1) hleft (ih hl))
  | rightTail hop _ ih =>
    intro hleft
    exact .operation (OperatorTable.declares_of_mem hop.1) hleft
      (ih (List.forall_mem_cons.mp hts).2)
  | nonAssocTail hop _ ih =>
    intro hleft
    exact .operation (OperatorTable.declares_of_mem hop.1) hleft
      (ih (List.forall_mem_cons.mp hts).2)
  | lambda hw _ ih =>
    simp only [List.forall_mem_cons] at hts
    exact .lambda (wellFormed_word table hts.2.1 hw) (ih hts.2.2.2)
  | operation _ _ ih => exact ih hts
  | binding _ _ ih ih' =>
    obtain ⟨hl, hr⟩ := List.forall_mem_append.mp (List.forall_mem_cons.mp hts).2
    exact ⟨ih hl, ih' (List.forall_mem_cons.mp hr).2⟩
  | noFurther => exact fun b hb => nomatch hb
  | further _ _ ih ih' =>
    obtain ⟨hl, hr⟩ := List.forall_mem_append.mp (List.forall_mem_cons.mp hts).2
    exact List.forall_mem_cons.mpr ⟨ih hl, ih' hr⟩
  | empty => exact fun b hb => nomatch hb
  | program _ _ ih ih' =>
    obtain ⟨hl, hr⟩ := List.forall_mem_append.mp hts
    exact List.forall_mem_cons.mpr ⟨ih hl, ih' hr⟩

end Grammar

end Fixity
