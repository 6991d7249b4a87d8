import Fixity.Proofs.Levels
import Fixity.Proofs.WrittenLines

/-! # Validation and scanning

A table is validated by looking at the characters of its symbols, and a source is scanned
without looking at a table, by a list of characters of its own.  The two agree, since their
lists hold the same characters (`OperatorTable.mem_operatorChars`): a symbol that is not
punctuation passes exactly when a source in which it stands between two words is scanned to
the words and this one symbol (`OperatorTable.scansAsOne_iff_isSymbol`).

So a table is valid when its operators are **sound** (`OperatorTable.Sound`): their symbols
are scanned as one, are no punctuation, and differ.  And where it is not valid, validation
stops at the first operator that is not sound behind those before it, with what is wrong
there (`OperatorTable.validate_agrees_with_scanning`).
-/
namespace Fixity

/-- A line that writes tokens is scanned to them. -/
theorem Source.tokens_of_line {source : String} {ts : List Token} (hts : Writable ts)
    (h : Writes IsSpacing ts source.toList) : tokens source = .ok ts := by
  have hspells := h.spells hts.lexical hts.newline_notMem
  have htokens := tokens_of_yields [(source.toList, ts)]
    (List.forall_mem_singleton.mpr ⟨h.isPlain hts, yields_of_scans hspells.scans⟩)
    (List.intercalate_singleton).symm
  rw [htokens, List.map_singleton, joinLines, List.intercalate_singleton]

namespace OperatorTable

/-! ## Symbols -/

/-- A text is scanned as one symbol where it stands between two words. -/
def ScansAsOne (s : String) : Prop :=
  Source.tokens ("a " ++ s ++ " b") = .ok [.word "a", .symbol s, .word "b"]

instance (s : String) : Decidable (ScansAsOne s) :=
  inferInstanceAs (Decidable (Source.tokens _ = _))

/-- **What is scanned as one symbol**: a run of operator characters, or one of the characters
that are symbols by themselves. -/
theorem scansAsOne_iff_lexical (s : String) : ScansAsOne s ↔ (Token.symbol s).Lexical := by
  constructor
  · intro h
    rcases Source.lexical_of_tokens h (.symbol s) (by simp) with hnewline | ⟨hlexical, -⟩
    · cases hnewline
    · exact hlexical
  · intro h
    have ha : (Token.word "a").Lexical := ⟨rfl, List.forall_mem_nil _⟩
    have hb : (Token.word "b").Lexical := ⟨rfl, List.forall_mem_nil _⟩
    refine Source.tokens_of_line ⟨?_, by simp, by simp⟩ ?_
    · exact List.forall_mem_cons.mpr
        ⟨ha, List.forall_mem_cons.mpr ⟨h, List.forall_mem_singleton.mpr hb⟩⟩
    · have hspace : IsSpacing [' '] := by decide
      have hwrites : Writes IsSpacing [.word "a", .symbol s, .word "b"] _ :=
        .cons _ hspace (.cons _ hspace (.last _))
      simpa [Token.spelling] using hwrites

/-- **Scanning agrees with the characters**, but for punctuation. -/
theorem scansAsOne_iff_isSymbol {s : String} (h : s ∉ punctuation) :
    ScansAsOne s ↔ isSymbol s = true := by
  have hsub : ["\\", "(", ")"] ⊆ punctuation := by decide
  rw [scansAsOne_iff_lexical, isSymbol_iff]
  exact or_iff_left fun hmem => h (hsub hmem)

example : ScansAsOne "--" ∧ ¬ ScansAsOne "" ∧ ¬ ScansAsOne "+ +" ∧ ¬ ScansAsOne "+\n" := by
  decide +kernel

/-! ## Operators in order -/

/-- **Operators whose symbols can be told**: pairwise distinct, none of them punctuation of the
grammar, and each scanned as one. -/
structure Sound (ops : List Operator) : Prop where
  nodup : (ops.map (·.symbol)).Nodup
  unreserved : ∀ op ∈ ops, op.symbol ∉ ["=", "->", "\\", "(", ")"]
  scans : ∀ op ∈ ops, ScansAsOne op.symbol

theorem check_eq_ok_iff_sound (ops : List Operator) : check [] ops = .ok () ↔ Sound ops := by
  refine (valid_iff ⟨ops⟩).trans ⟨fun ⟨hnodup, h⟩ => ⟨hnodup, fun op hop => (h op hop).1, ?_⟩,
    fun h => ⟨h.nodup, fun op hop => ⟨h.unreserved op hop, ?_⟩⟩⟩
  · exact fun op hop => (scansAsOne_iff_isSymbol (h op hop).1).mpr (h op hop).2
  · exact (scansAsOne_iff_isSymbol (h.unreserved op hop)).mp (h.scans op hop)

/-- **What is wrong with a symbol** behind others, if anything is.  Punctuation comes before a
text that is not scanned as one symbol, and this before a symbol that is there already. -/
def fault? (seen : List String) (s : String) : Option Error :=
  if s ∈ ["=", "->", "\\", "(", ")"] then some (.reserved s)
  else if ¬ ScansAsOne s then some (.notASymbol s)
  else if s ∈ seen then some (.duplicate s)
  else none

theorem fault?_congr {seen seen' : List String} {s : String} (h : s ∈ seen ↔ s ∈ seen') :
    fault? seen s = fault? seen' s := by
  simp only [fault?, h]

theorem fault?_eq_none_iff {seen : List String} {s : String} :
    fault? seen s = none ↔
      s ∉ ["=", "->", "\\", "(", ")"] ∧ ScansAsOne s ∧ s ∉ seen := by
  unfold fault?
  by_cases hs : s ∈ ["=", "->", "\\", "(", ")"]
  · simp [hs]
  · by_cases hscans : ScansAsOne s <;> simp [hs, hscans]

/-- An operator may join sound ones exactly when nothing is wrong with its symbol. -/
theorem sound_concat_iff {ops : List Operator} {op : Operator} :
    Sound (ops ++ [op]) ↔ Sound ops ∧ fault? (ops.map (·.symbol)) op.symbol = none := by
  rw [fault?_eq_none_iff]
  constructor
  · rintro ⟨hnodup, hunreserved, hscans⟩
    rw [List.map_append, List.map_singleton, List.nodup_append] at hnodup
    simp only [List.forall_mem_append, List.forall_mem_singleton] at hunreserved hscans
    refine ⟨⟨hnodup.1, hunreserved.1, hscans.1⟩, hunreserved.2, hscans.2, fun hmem => ?_⟩
    exact hnodup.2.2 _ hmem _ List.mem_cons_self rfl
  · rintro ⟨⟨hnodup, hunreserved, hscans⟩, hp, hs, hnew⟩
    refine ⟨?_, List.forall_mem_append.mpr ⟨hunreserved, List.forall_mem_singleton.mpr hp⟩,
      List.forall_mem_append.mpr ⟨hscans, List.forall_mem_singleton.mpr hs⟩⟩
    rw [List.map_append, List.map_singleton]
    exact List.nodup_append.mpr ⟨hnodup, List.nodup_singleton _, by grind⟩

/-- **One step of validation**: it ends at a fault, and goes on where there is none. -/
theorem check_cons (seen : List String) (op : Operator) (ops : List Operator) :
    check seen (op :: ops) =
      match fault? seen op.symbol with
      | some e => .error e
      | none => check (op.symbol :: seen) ops := by
  rw [check, fault?, ← punctuation]
  by_cases hs : op.symbol ∈ punctuation
  · rw [if_pos hs, if_pos hs]
  · have hscans := scansAsOne_iff_isSymbol hs
    cases hsymbol : isSymbol op.symbol with
    | false => simp [hs, hscans, hsymbol]
    | true => by_cases hseen : op.symbol ∈ seen <;> simp [hs, hscans, hsymbol, hseen]

/-- **Validation fails at the first fault.** -/
theorem check_eq_error_iff {seen : List String} {ops : List Operator} {e : Error} :
    check seen ops = .error e ↔ ∃ before op after, ops = before ++ op :: after ∧
      check seen before = .ok () ∧
      fault? ((before.map (·.symbol)).reverse ++ seen) op.symbol = some e := by
  induction ops generalizing seen with
  | nil => simp [check]
  | cons first ops ih =>
    rw [check_cons]
    cases hfirst : fault? seen first.symbol with
    | some e' =>
      constructor
      · rintro ⟨⟩
        exact ⟨[], first, ops, rfl, rfl, hfirst⟩
      · rintro ⟨_ | ⟨b, before⟩, op, after, heq, hok, hfault⟩
        · cases heq
          exact congrArg Except.error (Option.some.inj (hfirst.symm.trans hfault))
        · cases heq
          rw [check_cons, hfirst] at hok
          cases hok
    | none =>
      refine ih.trans ⟨?_, ?_⟩
      · rintro ⟨before, op, after, rfl, hok, hfault⟩
        refine ⟨first :: before, op, after, rfl, ?_, ?_⟩
        · rw [check_cons, hfirst]
          exact hok
        · simpa using hfault
      · rintro ⟨_ | ⟨b, before⟩, op, after, heq, hok, hfault⟩
        · cases heq
          cases hfirst.symm.trans hfault
        · cases heq
          rw [check_cons, hfirst] at hok
          exact ⟨before, op, after, rfl, hok, by simpa using hfault⟩

/-- **Validation agrees with scanning.**  A table is valid exactly when its operators are sound;
and where it is not, the error tells what is wrong with the first operator that is not sound
behind those before it. -/
theorem validate_agrees_with_scanning (table : OperatorTable) :
    (table.validate = .ok () ↔ Sound table.operators) ∧
    ∀ e, table.validate = .error e ↔
      ∃ before op after, table.operators = before ++ op :: after ∧ Sound before ∧
        ¬ Sound (before ++ [op]) ∧ fault? (before.map (·.symbol)) op.symbol = some e := by
  constructor
  · exact check_eq_ok_iff_sound table.operators
  · intro e
    rw [validate, check_eq_error_iff]
    refine exists_congr fun before => exists_congr fun op => exists_congr fun after => ?_
    refine and_congr_right fun _ => ?_
    have hseen : op.symbol ∈ (before.map (·.symbol)).reverse ↔
        op.symbol ∈ before.map (·.symbol) := List.mem_reverse
    rw [check_eq_ok_iff_sound, sound_concat_iff, List.append_nil, fault?_congr hseen]
    grind

/-- A second operator that is punctuation, that is not scanned as one symbol, and that has the
symbol of the first one. -/
theorem validate_agrees_with_scanning_faults :
    Sound [.left "+" 6] ∧
    (⟨[.left "+" 6, .right "->" 1]⟩ : OperatorTable).validate = .error (.reserved "->") ∧
    (⟨[.left "+" 6, .right "(" 1]⟩ : OperatorTable).validate = .error (.reserved "(") ∧
    (⟨[.left "+" 6, .right "" 1]⟩ : OperatorTable).validate = .error (.notASymbol "") ∧
    (⟨[.left "+" 6, .right "+ +" 1]⟩ : OperatorTable).validate = .error (.notASymbol "+ +") ∧
    (⟨[.left "+" 6, .right "+" 1]⟩ : OperatorTable).validate = .error (.duplicate "+") := by
  have hsound : Sound [.left "+" 6] :=
    (validate_agrees_with_scanning ⟨[.left "+" 6]⟩).1.mp (by decide +kernel)
  have herror : ∀ {op : Operator} {e : Error}, fault? ["+"] op.symbol = some e →
      (⟨[.left "+" 6, op]⟩ : OperatorTable).validate = .error e := by
    intro op e hfault
    refine ((validate_agrees_with_scanning _).2 e).mpr
      ⟨[.left "+" 6], op, [], rfl, hsound, fun hboth => ?_, hfault⟩
    cases hfault.symm.trans (sound_concat_iff.mp hboth).2
  exact ⟨hsound, herror (by decide +kernel), herror (by decide +kernel),
    herror (by decide +kernel), herror (by decide +kernel), herror (by decide +kernel)⟩

end OperatorTable

end Fixity
