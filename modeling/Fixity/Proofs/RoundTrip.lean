import Fixity.Proofs.Parsing
import Fixity.Proofs.WellFormed
import Fixity.Expr.Printer

/-! # Printing and parsing back

The printed text of a well-formed program is read back as that program, whatever the
operators of the language are: compound operands stand in parentheses, so the text
holds at most one operator between two parentheses, and no fixity matters.

**The text spells tokens** (`Spells`): each is delimited by what follows, the text holds
no line feed and does not end in a blank.  So the lines of a printed program are lines of
code as they are.  **The tokens derive the tree**: an operator between two terms is an
operation of every list of precedences that holds its own (`Grammar.derives_infix`).

Together with what is known of parsed programs, this says that printing is an exact
section of parsing (`Language.wellFormed_and_roundTrip`).
-/
namespace Fixity

/-! ## Derivations of printed operations -/

namespace Grammar
variable {table : OperatorTable} {ts us : List Token}

/-- **An operator between two terms** is an operation of the precedences that its own is
among. -/
theorem derives_infix {ks : List Int32} {op : Operator} {left right : Expr}
    (hop : op ∈ table.operators) (hk : op.precedence ∈ ks) (hl : Derives table (.term left) ts)
    (hr : Derives table (.term right) us) :
    Derives table (.operation ks (.call (.name (.operator op.symbol)) [left, right]))
      (ts ++ .symbol op.symbol :: us) := by
  induction ks with
  | nil => cases hk
  | cons k tighter ih =>
    rcases List.mem_cons.mp hk with hk | hk
    · refine .level (derives_of_term hl tighter) ?_
      cases ha : op.associativity with
      | left =>
        simpa using Derives.leftTail ⟨hop, hk, ha⟩ (derives_of_term hr tighter) .noTail
      | right => exact .rightTail ⟨hop, hk, ha⟩ (derives_of_term hr _)
      | nonAssoc => exact .nonAssocTail ⟨hop, hk, ha⟩ (derives_of_term hr tighter)
    · simpa using Derives.level (ih hk) .noTail

end Grammar

/-! ## Printed expressions -/

namespace Expr
variable {table : OperatorTable}

open Grammar (Derives)

/-- A call that is no use of an operator is written as the function followed by its
arguments. -/
theorem print_call {function : Expr} {arguments : List Expr}
    (h : ¬ ∃ s left right, function = .name (.operator s) ∧ arguments = [left, right]) :
    (call function arguments).print =
      " ".intercalate (function.printOperand :: arguments.map printOperand) := by
  rw [print, printOperands_eq_map]
  · rfl
  · intro s left right hfunction hoperands
    rw [printOperands_eq_map] at hoperands
    refine h ⟨s, ?_⟩
    match arguments, hoperands with
    | [left, right], _ => exact ⟨left, right, hfunction, rfl⟩

/-- **What is printed of an expression** spells tokens that derive it, and a leaf is a
term as it is. -/
def Spelled (table : OperatorTable) (e : Expr) : Prop :=
  ∃ ts, Spells e.print.toList ts ∧ Derives table (.expression e) ts ∧
    (e.isLeaf = true → Derives table (.term e) ts)

/-- As an operand, every expression is a term. -/
theorem Spelled.operand {e : Expr} (h : e.Spelled table) :
    ∃ ts, Spells e.printOperand.toList ts ∧ Derives table (.term e) ts := by
  obtain ⟨ts, hs, hd, hleaf⟩ := h
  rw [printOperand, enclose]
  split
  · rename_i hl
    exact ⟨ts, hs, hleaf hl⟩
  · refine ⟨_, ?_, .group hd⟩
    simpa using hs.enclose

/-- Arguments, with spaces between them. -/
theorem spells_arguments {es : List Expr} (hne : es ≠ []) (h : ∀ e ∈ es, e.Spelled table) :
    ∃ ts, Spells (" ".intercalate (es.map printOperand)).toList ts ∧
      Derives table (.arguments es) ts := by
  induction es with
  | nil => exact absurd rfl hne
  | cons e es ih =>
    obtain ⟨he, hes⟩ := List.forall_mem_cons.mp h
    obtain ⟨ts, hs, hd⟩ := he.operand
    by_cases hnil : es = []
    · subst hnil
      refine ⟨ts ++ [], ?_, .argument hd .noArgument⟩
      simpa using hs
    · obtain ⟨us, hs', hd'⟩ := ih hnil hes
      refine ⟨ts ++ us, ?_, .argument hd hd'⟩
      rw [List.map_cons, String.intercalate_cons_of_ne_nil (by simpa using hnil)]
      simpa using hs.space hs'

/-- A declared operator is spelled by its symbol. -/
theorem spells_operator {op : Operator} (hv : table.Valid) (hop : op ∈ table.operators) :
    Spells op.symbol.toList [.symbol op.symbol] :=
  .symbol ((OperatorTable.isSymbol_iff _).mp (hv.isSymbol hop))

theorem spelled_name {x : Name} (hv : table.Valid) (h : x.WellFormed table) :
    ∃ ts, Spells x.print.toList ts ∧ Derives table (.name x) ts := by
  cases x with
  | word w => exact ⟨_, .word h.1, .word h.2⟩
  | operator s =>
    obtain ⟨op, hop, rfl⟩ := (table.declares_iff s).mp h
    refine ⟨_, ?_, .enclosed hop⟩
    simpa [Name.print] using (spells_operator hv hop).enclose

theorem spelled_literal {value : Literal} (h : value.WellFormed) :
    ∃ ts, Spells value.print.toList ts ∧ Derives table (.term (.literal value)) ts := by
  cases value with
  | integer digits => exact ⟨_, .integer h, .integer⟩
  | string text => exact ⟨_, .string h.1 h.2, .string⟩

/-- A term by itself. -/
theorem spelled_of_term {e : Expr}
    (h : ∃ ts, Spells e.print.toList ts ∧ Derives table (.term e) ts) : e.Spelled table := by
  obtain ⟨ts, hs, hd⟩ := h
  exact ⟨ts, hs, Grammar.derives_of_operation (Grammar.derives_of_term hd _), fun _ => hd⟩

/-- An expression that is a term only in parentheses. -/
theorem spelled_of_expression {e : Expr} (hleaf : e.isLeaf = false)
    (h : ∃ ts, Spells e.print.toList ts ∧ Derives table (.expression e) ts) :
    e.Spelled table := by
  obtain ⟨ts, hs, hd⟩ := h
  refine ⟨ts, hs, hd, fun h => ?_⟩
  rw [hleaf] at h
  cases h

/-- **Well-formed expressions are spelled by what is printed of them.** -/
theorem WellFormed.spelled {e : Expr} (hv : table.Valid) (h : e.WellFormed table) :
    e.Spelled table := by
  induction h with
  | name hx =>
    obtain ⟨ts, hs, hd⟩ := spelled_name hv hx
    exact spelled_of_term ⟨ts, hs, .name hd⟩
  | literal hl => exact spelled_of_term (spelled_literal hl)
  | @call function arguments hf hne _ ih ih' =>
    by_cases hinfix : ∃ s left right, function = .name (.operator s) ∧ arguments = [left, right]
    · -- An operator of two operands is printed between them.
      obtain ⟨s, left, right, rfl, rfl⟩ := hinfix
      obtain ⟨ts, hs, hd⟩ := (ih' left (by simp)).operand
      obtain ⟨us, hs', hd'⟩ := (ih' right (by simp)).operand
      cases hf with
      | name hdecl =>
        obtain ⟨op, hop, rfl⟩ := (table.declares_iff s).mp hdecl
        have hk : op.precedence ∈ table.precedences :=
          OperatorTable.mem_precedences.mpr ⟨op, hop, rfl⟩
        refine spelled_of_expression rfl ⟨ts ++ .symbol op.symbol :: us, ?_,
          Grammar.derives_of_operation (Grammar.derives_infix hop hk hd hd')⟩
        show Spells (Expr.operation op.symbol left right).print.toList _
        rw [print_operation]
        simpa using hs.space ((spells_operator hv hop).space hs')
    · -- Every other call is printed as the function in front of its arguments.
      obtain ⟨ts, hs, hd⟩ := ih.operand
      obtain ⟨us, hs', hd'⟩ := spells_arguments hne ih'
      have hcall : Derives table (.operation [] (.call function arguments)) (ts ++ us) := by
        obtain ⟨e, es, rfl⟩ := List.exists_cons_of_ne_nil hne
        exact .call hd hd'
      refine spelled_of_expression rfl ⟨ts ++ us, ?_,
        Grammar.derives_of_operation (Grammar.derives_of_call hcall _)⟩
      rw [print_call hinfix, String.intercalate_cons_of_ne_nil (by simpa using hne)]
      simpa using hs.space hs'
  | lambda hw _ ih =>
    obtain ⟨ts, hs, hd, -⟩ := ih
    refine spelled_of_expression rfl ⟨_, ?_, .lambda hw.2 hd⟩
    have harrow : Spells "->".toList [.symbol "->"] := .symbol (by decide)
    simpa [print, Name.print] using ((Spells.word hw.1).space (harrow.space hs)).backslash

end Expr

/-! ## Printed programs -/

open Grammar (Derives)

variable {table : OperatorTable}

/-- **A printed binding** is a plain line of code, whose tokens derive it. -/
theorem Binding.WellFormed.yields {b : Binding} (hv : table.Valid) (h : b.WellFormed table) :
    ∃ ts, Source.IsPlain b.print.toList ∧ Yields b.print.toList ts ∧
      Derives table (.binding b) ts := by
  obtain ⟨ts, hname, hx⟩ := Expr.spelled_name hv h.name
  obtain ⟨us, hvalue, he, -⟩ := h.value.spelled hv
  have hlet : Spells "let".toList [.word "let"] :=
    .word ⟨rfl, List.all_eq_true.mp rfl⟩
  have hequals : Spells "=".toList [.symbol "="] := .symbol (by decide)
  have hall := hlet.space (hname.space (hequals.space hvalue))
  have htext : b.print.toList =
      "let".toList ++ ' ' :: (b.name.print.toList ++ ' ' :: ("=".toList ++ ' ' ::
        b.value.print.toList)) := by
    simp [Binding.print]
  rw [htext]
  -- The line starts with the keyword, so it starts neither with a blank nor a comment.
  refine ⟨_, ⟨hall.ne_nil, hall.newline_notMem, ?_, ?_, rfl⟩, yields_of_scans hall.scans,
    .binding hx he⟩
  · intro c hc
    cases hc
    decide
  · intro c hc
    obtain ⟨c', hc', hb⟩ := hall.last_not_blank
    rw [hc] at hc'
    cases hc'
    exact hb

/-- The lines of printed bindings, with their tokens. -/
theorem exists_lines {bs : List Binding} (hv : table.Valid)
    (h : ∀ b ∈ bs, b.WellFormed table) :
    ∃ pairs : List (List Char × List Token),
      pairs.map Prod.fst = bs.map (·.print.toList) ∧
        (∀ pair ∈ pairs, Source.IsPlain pair.1 ∧ Yields pair.1 pair.2) ∧
        Derives table (.further bs) ((pairs.map Prod.snd).flatMap (.newline :: ·)) := by
  induction bs with
  | nil => exact ⟨[], rfl, by simp, .noFurther⟩
  | cons b bs ih =>
    obtain ⟨hb, hbs⟩ := List.forall_mem_cons.mp h
    obtain ⟨ts, hplain, hyields, hd⟩ := hb.yields hv
    obtain ⟨pairs, hfst, hpairs, hds⟩ := ih hbs
    refine ⟨(b.print.toList, ts) :: pairs, by simp [hfst], ?_, .further hd hds⟩
    exact List.forall_mem_cons.mpr ⟨⟨hplain, hyields⟩, hpairs⟩

/-- **The tokens of a printed program** derive it. -/
theorem Program.WellFormed.tokens_print {p : Program} (hv : table.Valid)
    (h : p.WellFormed table) :
    ∃ ts, Source.tokens p.print = .ok ts ∧ Derives table (.program p) ts := by
  obtain ⟨bs⟩ := p
  cases bs with
  | nil => exact ⟨[], Source.tokens_of_yields [] (by simp) rfl, .empty⟩
  | cons b bs =>
    obtain ⟨hb, hbs⟩ := List.forall_mem_cons.mp h
    obtain ⟨ts, hplain, hyields, hd⟩ := hb.yields hv
    obtain ⟨pairs, hfst, hpairs, hds⟩ := exists_lines hv hbs
    refine ⟨_, Source.tokens_of_yields ((b.print.toList, ts) :: pairs) ?_ ?_, ?_⟩
    · exact List.forall_mem_cons.mpr ⟨⟨hplain, hyields⟩, hpairs⟩
    · rw [Program.print, String.toList_intercalate, List.map_map, List.map_cons, List.map_cons,
        hfst]
      rfl
    · rw [List.map_cons, Source.joinLines_cons]
      exact .program hd hds

namespace Language

/-- **Printing is an exact section of parsing.**  What is parsed from a source is well
formed, and every well-formed program is read back from its printed text. -/
theorem wellFormed_and_roundTrip (L : Language) (p : Program) :
    (∀ source ts, Source.tokens source = .ok ts → L.parse ts = .ok p → p.WellFormed L.table) ∧
      (p.WellFormed L.table → ∃ ts, Source.tokens p.print = .ok ts ∧ L.parse ts = .ok p) := by
  constructor
  · intro source ts hts hp
    exact (L.derives_of_parse hp).wellFormed (Source.lexical_of_tokens hts)
  · intro h
    obtain ⟨ts, hts, hd⟩ := h.tokens_print L.valid
    exact ⟨ts, hts, L.parse_of_derives hd⟩

/-- A program with an operator, a call and a function, printed and read back. -/
theorem wellFormed_and_roundTrip_standard :
    let p : Program := ⟨[⟨.operator "+", .lambda (.word "x")
      (.operation "-" (.literal (.integer "1")) (.call (.name (.word "f")) [.name (.word "x")]))⟩]⟩
    ∃ ts, Source.tokens p.print = .ok ts ∧ standard.parse ts = .ok p ∧
      p.WellFormed standard.table := by
  intro p
  have hx : (Name.word "x").WellFormed standard.table :=
    ⟨⟨rfl, List.all_eq_true.mp rfl⟩, by decide⟩
  have hf : (Name.word "f").WellFormed standard.table :=
    ⟨⟨rfl, List.all_eq_true.mp rfl⟩, by decide⟩
  have hone : (Literal.integer "1").WellFormed := ⟨by decide, List.all_eq_true.mp rfl⟩
  have hcall : (Expr.call (.name (.word "f")) [.name (.word "x")]).WellFormed standard.table := by
    refine .call (.name hf) (by simp) fun e he => ?_
    rw [List.mem_singleton.mp he]
    exact .name hx
  have hp : p.WellFormed standard.table := by
    intro b hb
    rw [List.mem_singleton.mp hb]
    exact ⟨rfl, .lambda hx (.operation rfl (.literal hone) hcall)⟩
  obtain ⟨ts, hts, hparse⟩ := (wellFormed_and_roundTrip standard p).2 hp
  exact ⟨ts, hts, hparse, (wellFormed_and_roundTrip standard p).1 p.print ts hts hparse⟩

end Language

end Fixity
