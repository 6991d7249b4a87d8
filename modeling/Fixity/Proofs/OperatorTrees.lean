import Fixity.Proofs.LongestPhrases
import Fixity.Proofs.Parsing

/-! # The trees that infix expressions stand for

The levels of a table read what fixities say of single nodes.  Without groups, the tree that
is returned lists the tokens that were read and respects precedence and associativity, and no
tree that does lists more of the tokens (`Tree.run_reads_longest`).  With parentheses, every
tree over the operators of the table is returned for each way to write it
(`Tree.parse_written`).
-/
namespace Fixity

open OperatorTable (Level)

namespace Tree
variable {α : Type} {decode : Token → Option α} {grouping : Prop} {table : OperatorTable}
  {ts : List Token} {t : Tree α}

/-! ## Operations of a table -/

theorem over_levels : t.Over (table.levels.flatMap Level.operators) ↔ t.Over table.operators := by
  simp only [Over, table.levels_perm.mem_iff]

/-- **What the levels of a table read** are the ways to write trees over its operators. -/
theorem formsOperation_levels :
    FormsOperation decode grouping table.levels table.levels ts t ↔
      (∃ o, Written decode grouping o t ts) ∧ t.Over table.operators := by
  constructor
  · intro h
    obtain ⟨o, hwritten, hover, -⟩ := h.written table.levels_ordered (List.suffix_refl _)
    exact ⟨⟨o, hwritten⟩, over_levels.mp hover⟩
  · rintro ⟨⟨o, hwritten⟩, hover⟩
    have hover' := over_levels.mpr hover
    have hstands := hwritten.stands table.levels_ordered hover'
    exact hstands.forms _ (List.suffix_refl _) fun op ho => hover'.root (hwritten.root ho)

/-! ## Without groups -/

/-- **A proper listing**: the tokens list a tree over the operators of the table that respects
precedence and associativity. -/
structure ProperListing (decode : Token → Option α) (table : OperatorTable) (ts : List Token)
    (t : Tree α) : Prop where
  lists : t.Lists decode ts
  operators : t.Over table.operators
  respects : t.Respects

theorem formsOperation_iff_properListing :
    FormsOperation decode False table.levels table.levels ts t ↔
      ProperListing decode table ts t := by
  rw [formsOperation_levels]
  constructor
  · rintro ⟨⟨o, hwritten⟩, hover⟩
    obtain ⟨-, hrespects, hlists⟩ := written_iff_lists.mp hwritten
    exact ⟨hlists, hover, hrespects⟩
  · rintro ⟨hlists, hover, hrespects⟩
    exact ⟨⟨_, written_iff_lists.mpr ⟨rfl, hrespects, hlists⟩⟩, hover⟩

section Run
variable (decode) (table) (expected : String) {c : Cursor}

/-- Where no token is an operand, nothing is read. -/
theorem rule_fails (h : c.peek?.bind decode = none) :
    ∃ f c', (rule Token.symbol? table none (.token decode expected)).run c = .fail f c' := by
  have hbalks : ((rule Token.symbol? table none (.token decode expected)).eval 0 .nil).Balks
      fun t? => t?.bind decode = none := by
    refine .fix (fun _ => Grammar.balks_levelRules _ ?_) 0
    exact .map (.token fun _ h => h)
  obtain ⟨f, c', hrun, -⟩ := hbalks c h
  exact ⟨f, c', hrun⟩

variable {decode table}

/-- Where a token is an operand, the longest proper listing is read. -/
theorem rule_reads (hd : (table.operators.map (·.symbol)).Nodup) {v : α}
    (h : c.peek?.bind decode = some v) :
    ∃ ts t r c', c.tokens.drop c.position = ts ++ r ∧
      IsLongest (ProperListing decode table) (fun _ => Token.IsOperatorOf table.levels) ts t r ∧
      (rule Token.symbol? table none (.token decode expected)).run c = .ok t c' ∧
      c'.tokens = c.tokens ∧ c'.position = c.position + ts.length := by
  obtain ⟨token, htoken, hv⟩ := Option.bind_eq_some_iff.mp h
  obtain ⟨hpos, -⟩ := List.getElem?_eq_some_iff.mp htoken
  have hat : c.At c.tokens (c.tokens.drop c.position) :=
    ⟨rfl, c.tokens.take c.position, (List.take_append_drop _ _).symm,
      (List.length_take_of_le (Nat.le_of_lt hpos)).symm⟩
  have hphrase : FormsOperation decode False table.levels table.levels [token] (.value v) :=
    (Forms.value hv).lift table.levels
  obtain ⟨r, hr⟩ := List.head?_eq_some_iff.mp (hat.peek?.symm.trans htoken)
  obtain ⟨ts, t, r, hsplit, hlongest, hreads⟩ :=
    (Grammar.settles_rule hd expected _ (Nat.lt_succ_self _)).exists_reads hphrase hr
  rw [hsplit] at hat
  obtain ⟨_, c', hrun, hat', rfl⟩ := hreads c.tokens c hat
  refine ⟨ts, _, r, c', hsplit, hlongest.congr fun _ _ => formsOperation_iff_properListing.symm,
    hrun, hat'.tokens, ?_⟩
  have hlen := hat.length
  have hlen' := hat'.length
  rw [List.length_append] at hlen
  omega

/-- **Infix expressions without groups.**  Reading fails just where no token is an operand.
Otherwise it returns a tree that respects precedence and associativity, whose listing are the
tokens that were read, and no longer part of the tokens is the listing of such a tree. -/
theorem run_reads_longest (hd : (table.operators.map (·.symbol)).Nodup) (decode : Token → Option α)
    (expected : String) (c : Cursor) :
    (rule Token.symbol? table none (.token decode expected)).run c ≠ .stalled ∧
    ((∃ f c', (rule Token.symbol? table none (.token decode expected)).run c = .fail f c') ↔
      ∀ token, c.peek? = some token → decode token = none) ∧
    ∀ t c', (rule Token.symbol? table none (.token decode expected)).run c = .ok t c' →
      ∃ ts r, c.tokens.drop c.position = ts ++ r ∧ c'.tokens = c.tokens ∧
        c'.position = c.position + ts.length ∧ ProperListing decode table ts t ∧
        ∀ us r' t', c.tokens.drop c.position = us ++ r' → ProperListing decode table us t' →
          us.length ≤ ts.length := by
  rw [← Option.bind_eq_none_iff]
  cases hhead : c.peek?.bind decode with
  | none =>
    obtain ⟨f, c', hrun⟩ := rule_fails decode table expected hhead
    rw [hrun]
    exact ⟨nofun, iff_of_true ⟨f, c', rfl⟩ rfl, nofun⟩
  | some v =>
    obtain ⟨ts, t, r, c', hsplit, hlongest, hrun, htok, hpos⟩ := rule_reads expected hd hhead
    rw [hrun]
    refine ⟨nofun, iff_of_false nofun nofun, ?_⟩
    rintro _ _ ⟨⟩
    refine ⟨ts, r, hsplit, htok, hpos, hlongest.isPhrase, fun us r' t' hsplit' hus => ?_⟩
    exact hlongest.length_le hus (hsplit'.symm.trans hsplit)

end Run

/-- Three operators of one level: `a + b < c < d` is read up to the second `<`, and no proper
listing goes further. -/
theorem run_reads_longest_mixed :
    let table : OperatorTable := ⟨[.left "+" 4, .right "++" 4, .nonAssoc "<" 4]⟩
    let c : Cursor := .start [.word "a", .symbol "+", .word "b", .symbol "<", .word "c",
      .symbol "<", .word "d"]
    let t : Tree String := .node (.nonAssoc "<" 4)
      (.node (.left "+" 4) (.value "a") (.value "b")) (.value "c")
    ∃ c', (rule Token.symbol? table none (.token Token.word? "word")).run c = .ok t c' ∧
      c'.position = 5 ∧ ProperListing Token.word? table (c.tokens.take 5) t ∧
      ∀ us r t', c.tokens = us ++ r → ProperListing Token.word? table us t' → us.length ≤ 5 := by
  intro table c t
  have hd : (table.operators.map (·.symbol)).Nodup := by decide
  obtain ⟨-, -, hok⟩ := run_reads_longest hd Token.word? "word" c
  obtain ⟨c', hrun, hpos⟩ : ∃ c', (rule Token.symbol? table none
      (.token Token.word? "word")).run c = .ok t c' ∧ c'.position = 5 := ⟨_, rfl, rfl⟩
  obtain ⟨ts, r, hsplit, -, hend, hlisting, hlongest⟩ := hok t c' hrun
  have hlen : ts.length = 5 := by
    rw [hpos] at hend
    exact (hend.trans (Nat.zero_add _)).symm
  have hts : c.tokens.take 5 = ts := by
    rw [show c.tokens = ts ++ r from hsplit, ← hlen, List.take_left]
  refine ⟨c', hrun, hpos, hts ▸ hlisting, fun us r' t' hus h => ?_⟩
  exact (hlongest us r' t' hus h).trans_eq hlen

/-! ## With parentheses -/

theorem Written.mono {grouping' : Prop} {o : Option Operator} (h : Written decode grouping o t ts)
    (hg : grouping → grouping') : Written decode grouping' o t ts := by
  induction h with
  | value h => exact .value h
  | node _ _ hleft hright ihl ihr => exact .node ihl ihr hleft hright
  | enclosed hgrouping _ ih => exact .enclosed (hg hgrouping) ih

/-- Every tree can be written, with parentheses around all of its sides. -/
theorem exists_written (t : Tree String) : ∃ o ts, Written Token.word? True o t ts := by
  induction t with
  | value w => exact ⟨none, [.word w], .value rfl⟩
  | node op left right ihl ihr =>
    obtain ⟨_, _, hl⟩ := ihl
    obtain ⟨_, _, hr⟩ := ihr
    exact ⟨_, _, .node (.enclosed trivial hl) (.enclosed trivial hr) nofun nofun⟩

/-- The tokens of a tree without parentheses. -/
def tokens (t : Tree String) : List Token :=
  t.listing.map (Sum.elim Token.word fun op => .symbol op.symbol)

theorem lists_tokens (t : Tree String) : t.Lists Token.word? t.tokens := by
  refine List.forall₂_map_left_iff.mpr (List.forall₂_same.mpr ?_)
  rintro (w | op) -
  · rfl
  · rfl

/-- Infix expressions over words, where parentheses may stand, to the end of the input. -/
def wordRule (table : OperatorTable) (expected : String) : Rule [] (Tree String) :=
  (rule Token.symbol? table (some .parentheses) (.token Token.word? expected)).toEnd

/-- **Parentheses express every tree** over the operators of a valid table, and change no
other: each way to write a tree is read as that tree.  A tree that respects precedence and
associativity needs none. -/
theorem parse_written (hv : table.Valid) (expected : String) {t : Tree String}
    (hover : t.Over table.operators) :
    (∃ o ts, Written Token.word? True o t ts) ∧
    (∀ o ts, Written Token.word? True o t ts → (wordRule table expected).parse ts = .ok t) ∧
    (t.Respects → (wordRule table expected).parse t.tokens = .ok t) := by
  have hopen : Token.word? (.symbol "(") = none := rfl
  have hclose : ¬ (Token.symbol ")").IsOperatorOf table.levels := by
    rintro ⟨op, hop, heq⟩
    refine hv.distinct.notMem_punctuation op hop ?_
    rw [← Token.symbol.inj heq]
    decide
  have hparse : ∀ o ts, Written Token.word? True o t ts →
      (wordRule table expected).parse ts = .ok t := by
    intro o ts hts
    have hphrase := formsOperation_levels.mpr ⟨⟨o, hts⟩, hover⟩
    exact ((Grammar.settles_rule_parentheses hv.nodup expected hopen hclose ts
      (Nat.lt_succ_self _)).accepts_all hphrase).result_toEnd
  refine ⟨exists_written t, hparse, fun hrespects => ?_⟩
  have hwritten := written_iff_lists.mpr ⟨rfl, hrespects, lists_tokens t⟩
  exact hparse _ _ (hwritten.mono False.elim)

/-- `(a + b) * ((c))` with the standard table. -/
theorem parse_written_product :
    let t : Tree String := .node (.left "*" 7) (.node (.left "+" 6) (.value "a") (.value "b"))
      (.value "c")
    (wordRule .standard "word").parse [.symbol "(", .word "a", .symbol "+", .word "b", .symbol ")",
      .symbol "*", .symbol "(", .symbol "(", .word "c", .symbol ")", .symbol ")"] = .ok t := by
  intro t
  have hover : t.Over OperatorTable.standard.operators :=
    over_node.mpr ⟨by decide, over_node.mpr ⟨by decide, nofun, nofun⟩, nofun⟩
  have hword : ∀ w, Written Token.word? True none (.value w) [.word w] := fun w => .value rfl
  obtain ⟨-, hparse, -⟩ := parse_written OperatorTable.standard_valid "word" hover
  exact hparse _ _ (.node (.enclosed trivial (.node (hword "a") (hword "b") nofun nofun))
    (.enclosed trivial (.enclosed trivial (hword "c"))) nofun nofun)

end Tree

end Fixity
