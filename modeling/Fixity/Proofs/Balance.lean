import Mathlib.Data.List.Basic
import Fixity.Proofs.Derivation
import Fixity.Proofs.Levels

/-! # No beginning is complete

Count `(`, `\` and `let` as openings and `)`, `->` and `=` as their closings.  A phrase
is balanced and ends like a term (`Derives.isClosed`).  The beginning of a phrase has
an opening to spare, or ends in something that wants more (`Begins.isOpen`).  So no
token list is both, whatever the phrases are: an operand, a binding or a program that
wants more is none yet.
-/
namespace Fixity.Grammar

variable {table : OperatorTable} {ts us : List Token} {t : Token}

/-! ## The balance of tokens -/

/-- What a token adds to the balance. -/
def weight (t : Token) : Int :=
  if t ∈ [.symbol "(", .symbol "\\", .word "let"] then 1
  else if t ∈ [.symbol ")", .symbol "->", .symbol "="] then -1
  else 0

/-- The openings of a token list that are not closed. -/
def excess : List Token → Int
  | [] => 0
  | t :: ts => weight t + excess ts

@[simp] theorem excess_nil : excess [] = 0 := rfl

@[simp] theorem excess_cons (t : Token) (ts : List Token) :
    excess (t :: ts) = weight t + excess ts := rfl

@[simp] theorem excess_append (ts us : List Token) : excess (ts ++ us) = excess ts + excess us := by
  induction ts with
  | nil => simp
  | cons t ts ih =>
    rw [List.cons_append, excess_cons, excess_cons, ih]
    omega

theorem weight_word {w : String} (hw : w ≠ "let") : weight (.word w) = 0 := by
  simp [weight, hw]

theorem weight_symbol {s : String} (hs : s ∉ OperatorTable.punctuation) :
    weight (.symbol s) = 0 := by
  simp only [OperatorTable.punctuation, List.mem_cons, not_or] at hs
  simp [weight, hs]

/-- A term can end with the token. -/
def EndsTerm : Token → Prop
  | .word w => w ≠ "let"
  | .symbol s => s = ")"
  | .integer _ => True
  | .string _ => True
  | .newline => False

theorem not_endsTerm_symbol {s : String} (hs : s ∉ OperatorTable.punctuation) :
    ¬ EndsTerm (.symbol s) := by
  rintro rfl
  exact hs (by decide)

/-- **Balanced**, and at the end of a term unless empty. -/
structure IsClosed (ts : List Token) : Prop where
  excess_eq : excess ts = 0
  endsTerm : ∀ t, ts.getLast? = some t → EndsTerm t

/-- **With an opening to spare**, or at an end that is none of a term. -/
def IsOpen (ts : List Token) : Prop :=
  0 < excess ts ∨ excess ts = 0 ∧ ∀ t, ts.getLast? = some t → ¬ EndsTerm t

/-- No token list is both. -/
theorem IsClosed.not_isOpen (h : IsClosed ts) (hne : ts ≠ []) : ¬ IsOpen ts := by
  rintro (hpos | ⟨-, hlast⟩)
  · have := h.excess_eq
    omega
  · have hsome := List.getLast?_eq_some_getLast hne
    exact hlast _ hsome (h.endsTerm _ hsome)

theorem isClosed_nil : IsClosed [] := ⟨rfl, fun t ht => by cases ht⟩

theorem isOpen_nil : IsOpen [] := Or.inr ⟨rfl, fun t ht => by cases ht⟩

theorem isClosed_singleton (hw : weight t = 0) (ht : EndsTerm t) : IsClosed [t] := by
  refine ⟨by simp [hw], fun t' ht' => ?_⟩
  cases ht'
  exact ht

theorem isOpen_singleton (hw : 0 ≤ weight t) (ht : ¬ EndsTerm t) : IsOpen [t] := by
  by_cases h : weight t = 0
  · refine Or.inr ⟨by simp [h], fun t' ht' => ?_⟩
    cases ht'
    exact ht
  · refine Or.inl ?_
    rw [excess_cons, excess_nil]
    omega

/-- Balanced tokens, and what ends like a term behind them. -/
theorem IsClosed.append (h : excess ts = 0) (hus : IsClosed us) (hnil : us = [] → IsClosed ts) :
    IsClosed (ts ++ us) := by
  by_cases hne : us = []
  · subst hne
    rw [List.append_nil]
    exact hnil rfl
  · refine ⟨by rw [excess_append, h, hus.excess_eq, Int.add_zero], fun t ht => hus.endsTerm t ?_⟩
    rwa [List.getLast?_append_of_ne_nil _ hne] at ht

/-- Tokens with nothing closed too early, and open ones behind them. -/
theorem IsOpen.append (h : 0 ≤ excess ts) (hus : IsOpen us) (hnil : us = [] → IsOpen ts) :
    IsOpen (ts ++ us) := by
  by_cases hne : us = []
  · subst hne
    rw [List.append_nil]
    exact hnil rfl
  · rcases hus with hpos | ⟨hzero, hlast⟩
    · refine Or.inl ?_
      rw [excess_append]
      omega
    · -- An opening to spare in front stays open; otherwise the end decides.
      by_cases hts : excess ts = 0
      · refine Or.inr ⟨by rw [excess_append, hts, hzero, Int.add_zero], fun t ht => hlast t ?_⟩
        rwa [List.getLast?_append_of_ne_nil _ hne] at ht
      · refine Or.inl ?_
        rw [excess_append]
        omega

theorem IsOpen.cons (hw : 0 ≤ weight t) (ht : ¬ EndsTerm t) (h : IsOpen us) :
    IsOpen (t :: us) := by
  have hone : 0 ≤ excess [t] := by simpa using hw
  exact h.append hone fun _ => isOpen_singleton hw ht

/-- Open tokens behind closed ones. -/
theorem IsOpen.behind (h : IsOpen us) (hts : IsClosed ts) (hne : us ≠ []) : IsOpen (ts ++ us) :=
  h.append (Int.le_of_eq hts.excess_eq.symm) fun hnil => absurd hnil hne

/-- Open tokens behind balanced ones that want more. -/
theorem IsOpen.after (h : IsOpen us) (hzero : excess (ts ++ [t]) = 0) (ht : ¬ EndsTerm t) :
    IsOpen (ts ++ [t] ++ us) := by
  refine h.append (Int.le_of_eq hzero.symm) fun _ => Or.inr ⟨hzero, fun t' ht' => ?_⟩
  rw [List.getLast?_concat] at ht'
  cases ht'
  exact ht

/-! ## Phrases and beginnings -/

theorem IsOpen.operator {s : String} (h : IsOpen us) (hs : s ∉ OperatorTable.punctuation) :
    IsOpen (.symbol s :: us) :=
  h.cons (Int.le_of_eq (weight_symbol hs).symm) (not_endsTerm_symbol hs)

theorem isClosed_operator {s : String} (hs : s ∉ OperatorTable.punctuation) (hne : ts ≠ [])
    (h : IsClosed ts) : IsClosed (.symbol s :: ts) := by
  have hzero : excess [.symbol s] = 0 := by simp [weight_symbol hs]
  exact h.append hzero fun hnil => absurd hnil hne

/-- A parameter with its arrow is balanced. -/
theorem excess_parameter {w : String} (hw : w ≠ "let") :
    excess [.symbol "\\", .word w, .symbol "->"] = 0 := by
  rw [excess_cons, excess_cons, weight_word hw]
  decide

/-- The start of a binding is balanced up to its equals sign. -/
theorem excess_bound (h : excess ts = 0) :
    excess ((.word "let" :: ts) ++ [.symbol "="]) = 0 := by
  rw [excess_append, excess_cons, h]
  decide

/-- **Phrases are closed.** -/
theorem Derives.isClosed {phrase : Phrase} (hv : table.Valid) (h : Derives table phrase ts) :
    IsClosed ts := by
  have hsymbol : ∀ op ∈ table.operators, op.symbol ∉ OperatorTable.punctuation :=
    fun _ hop => hv.notMem_punctuation (OperatorTable.declares_of_mem hop)
  induction h with
  | word hw => exact isClosed_singleton (weight_word hw) hw
  | enclosed hop =>
    have hw := weight_symbol (hsymbol _ hop)
    refine ⟨?_, fun t ht => ?_⟩
    · rw [excess_cons, excess_cons, hw]
      decide
    · cases ht
      rfl
  | name _ ih => exact ih
  | integer => exact isClosed_singleton rfl trivial
  | string => exact isClosed_singleton rfl trivial
  | group _ ih =>
    refine ⟨?_, fun t ht => ?_⟩
    · rw [excess_cons, excess_append, ih.excess_eq]
      decide
    · rw [← List.cons_append, List.getLast?_concat] at ht
      cases ht
      rfl
  | noArgument => exact isClosed_nil
  | argument _ _ ih ih' => exact ih'.append ih.excess_eq fun _ => ih
  | single _ ih => exact ih
  | call _ _ ih ih' => exact ih'.append ih.excess_eq fun _ => ih
  | level _ _ ih ih' =>
    exact ih'.append ih.excess_eq fun _ => ih
  | noTail => exact isClosed_nil
  | leftTail hop h _ ih ih' =>
    refine isClosed_operator (hsymbol _ hop.1) ?_ ?_
    · simp [h.ne_nil]
    · exact ih'.append ih.excess_eq fun _ => ih
  | rightTail hop h ih => exact isClosed_operator (hsymbol _ hop.1) h.ne_nil ih
  | nonAssocTail hop h ih =>
    exact isClosed_operator (hsymbol _ hop.1) h.ne_nil ih
  | lambda hw h ih => exact ih.append (excess_parameter hw) fun hnil => absurd hnil h.ne_nil
  | operation _ _ ih => exact ih
  | binding _ he ih ih' =>
    rw [List.append_cons, ← List.cons_append]
    exact ih'.append (excess_bound ih.excess_eq) fun hnil => absurd hnil he.ne_nil
  | noFurther => exact isClosed_nil
  | @further b bs ts us h _ ih ih' =>
    have hline : excess (.newline :: ts) = 0 := by
      rw [excess_cons, ih.excess_eq]
      decide
    refine ih'.append hline fun _ => ⟨hline, fun t ht => ih.endsTerm t ?_⟩
    rwa [List.getLast?_cons_of_ne_nil h.ne_nil] at ht
  | empty => exact isClosed_nil
  | program _ _ ih ih' => exact ih'.append ih.excess_eq fun _ => ih

/-- **Beginnings are open.** -/
theorem Begins.isOpen {part : Part} (hv : table.Valid) (h : Begins table part ts) :
    IsOpen ts := by
  have hsymbol : ∀ op ∈ table.operators, op.symbol ∉ OperatorTable.punctuation :=
    fun _ hop => hv.notMem_punctuation (OperatorTable.declares_of_mem hop)
  induction h with
  | name => exact isOpen_nil
  | enclosed => exact Or.inl (by decide)
  | enclosing hop =>
    refine Or.inl ?_
    rw [excess_cons, excess_cons, weight_symbol (hsymbol _ hop)]
    decide
  | termName _ ih => exact ih
  | group _ ih => exact ih.cons (by decide) (by simp [EndsTerm])
  | grouped he =>
    refine Or.inl ?_
    rw [excess_cons, (he.isClosed hv).excess_eq]
    decide
  | argument _ _ ih => exact ih
  | nextArgument he hs ih => exact ih.behind (he.isClosed hv) hs.ne_nil
  | function _ ih => exact ih
  | call he hs ih => exact ih.behind (he.isClosed hv) hs.ne_nil
  | operand _ ih => exact ih
  | level he hs ih => exact ih.behind (he.isClosed hv) hs.ne_nil
  | leftTail hop _ ih => exact ih.operator (hsymbol _ hop.1)
  | rightTail hop _ ih => exact ih.operator (hsymbol _ hop.1)
  | nonAssocTail hop _ ih => exact ih.operator (hsymbol _ hop.1)
  | nextTail hop he hs ih =>
    have hright := ih.behind (he.isClosed hv) hs.ne_nil
    exact hright.operator (hsymbol _ hop.1)
  | operation _ ih => exact ih
  | lambda => exact Or.inl (by decide)
  | parameter hw =>
    refine Or.inl ?_
    rw [excess_cons, excess_cons, weight_word hw]
    decide
  | body hw _ ih =>
    have hpre : excess ([.symbol "\\", .word _] ++ [.symbol "->"]) = 0 := excess_parameter hw
    exact ih.after hpre (by simp [EndsTerm])
  | binding => exact isOpen_nil
  | bound _ ih => exact ih.cons (by decide) (by simp [EndsTerm])
  | equals hx =>
    refine Or.inl ?_
    rw [excess_cons, (hx.isClosed hv).excess_eq]
    decide
  | value hx _ ih =>
    have hpre := excess_bound (hx.isClosed hv).excess_eq
    rw [List.append_cons, ← List.cons_append]
    exact ih.after hpre (by simp [EndsTerm])
  | further _ ih => exact ih.cons (by decide) id
  | nextFurther hb hs ih =>
    have hline := ih.behind (hb.isClosed hv) hs.ne_nil
    exact hline.cons (by decide) id
  | first _ _ ih => exact ih
  | program hb hs ih => exact ih.behind (hb.isClosed hv) hs.ne_nil

/-- **No beginning of a program is a program.** -/
theorem Begins.not_derives_program {p : Program} (hv : table.Valid)
    (h : Begins table .program ts) : ¬ Derives table (.program p) ts := by
  intro hp
  exact (hp.isClosed hv).not_isOpen h.ne_nil (h.isOpen hv)

/-- **No beginning of an expression is an expression.** -/
theorem Begins.not_derives_expression {e : Expr} (hv : table.Valid)
    (h : Begins table .expression ts) : ¬ Derives table (.expression e) ts := by
  intro he
  exact (he.isClosed hv).not_isOpen he.ne_nil (h.isOpen hv)

end Fixity.Grammar
