import Mathlib.Data.List.Nodup
import Fixity.OperatorTable

/-! # Symbols of a valid table and of its levels

A valid table is one whose symbols are pairwise distinct, none of them
punctuation, each a run of operator characters (`OperatorTable.valid_iff`).  The
levels of a table hold its operators and no others, each as often as the table
does (`OperatorTable.levels_perm`).  So a symbol leads to one level, and in it to
one associativity, which is what lets a level leave an operator to the levels
around it (`Level.Distinct`).
-/
namespace Fixity.OperatorTable

/-! ## Validity -/

/-- The scan accepts operators with new, pairwise distinct symbols that are runs
of operator characters and no punctuation. -/
theorem check_eq_ok_iff (seen : List String) (ops : List Operator) :
    check seen ops = .ok () ↔
      (ops.map (·.symbol)).Nodup ∧
        ∀ op ∈ ops, op.symbol ∉ seen ∧ op.symbol ∉ punctuation ∧ isSymbol op.symbol = true := by
  induction ops generalizing seen with
  | nil => simp [check]
  | cons op rest ih =>
    rw [check]
    split
    · rename_i hp
      simp [hp]
    split
    · rename_i hs
      simp [hs]
    split
    · rename_i hd
      simp [hd]
    · rename_i hp hs hd
      rw [ih, List.map_cons, List.nodup_cons, List.forall_mem_cons]
      simp only [Bool.not_eq_false] at hs
      constructor
      · rintro ⟨hn, hall⟩
        refine ⟨⟨?_, hn⟩, ⟨hd, hp, hs⟩, fun o ho => ⟨fun hm => ?_, (hall o ho).2⟩⟩
        · intro hm
          obtain ⟨o, ho, he⟩ := List.mem_map.mp hm
          exact (hall o ho).1 (he ▸ List.mem_cons_self)
        · exact (hall o ho).1 (List.mem_cons_of_mem _ hm)
      · rintro ⟨⟨hnew, hn⟩, -, hall⟩
        refine ⟨hn, fun o ho => ⟨fun hm => ?_, (hall o ho).2⟩⟩
        rcases List.mem_cons.mp hm with he | hm
        · exact hnew (List.mem_map.mpr ⟨o, ho, he⟩)
        · exact (hall o ho).1 hm

/-- **What makes a table valid.** -/
theorem valid_iff (table : OperatorTable) :
    table.Valid ↔
      (table.operators.map (·.symbol)).Nodup ∧
        ∀ op ∈ table.operators, op.symbol ∉ punctuation ∧ isSymbol op.symbol = true := by
  rw [Valid, validate, check_eq_ok_iff]
  simp

theorem Valid.nodup {table : OperatorTable} (h : table.Valid) :
    (table.operators.map (·.symbol)).Nodup := ((valid_iff table).mp h).1

theorem declares_iff (table : OperatorTable) (symbol : String) :
    table.declares symbol = true ↔ ∃ op ∈ table.operators, op.symbol = symbol := by
  simp [declares]

theorem declares_of_mem {table : OperatorTable} {op : Operator} (h : op ∈ table.operators) :
    table.declares op.symbol = true :=
  (table.declares_iff op.symbol).mpr ⟨op, h, rfl⟩

/-- A declared symbol is no punctuation. -/
theorem Valid.notMem_punctuation {table : OperatorTable} (h : table.Valid) {symbol : String}
    (hs : table.declares symbol = true) : symbol ∉ punctuation := by
  obtain ⟨op, hop, rfl⟩ := (table.declares_iff symbol).mp hs
  exact (((valid_iff table).mp h).2 op hop).1

/-- A declared symbol is a run of operator characters. -/
theorem Valid.isSymbol {table : OperatorTable} (h : table.Valid) {op : Operator}
    (hop : op ∈ table.operators) : isSymbol op.symbol = true :=
  (((valid_iff table).mp h).2 op hop).2

/-! ## The operators of levels -/

/-- The operators of a level. -/
def Level.operators (level : Level) : List Operator :=
  level.left ++ level.right ++ level.nonAssoc

theorem Level.mem_operators {level : Level} {op : Operator} :
    op ∈ level.operators ↔ ∃ a, op ∈ level.group a := by
  rw [operators, List.mem_append, List.mem_append]
  constructor
  · rintro ((h | h) | h)
    · exact ⟨.left, h⟩
    · exact ⟨.right, h⟩
    · exact ⟨.nonAssoc, h⟩
  · rintro ⟨a, h⟩
    cases a with
    | left => exact .inl (.inl h)
    | right => exact .inl (.inr h)
    | nonAssoc => exact .inr h

theorem Level.mem_operators_of_mem_group {level : Level} {a : Associativity} {op : Operator}
    (h : op ∈ level.group a) : op ∈ level.operators :=
  mem_operators.mpr ⟨a, h⟩

theorem Level.operators_push_perm (level : Level) (op : Operator) :
    (level.push op).operators.Perm (op :: level.operators) := by
  unfold push operators
  split
  · show (level.left ++ [op] ++ level.right ++ level.nonAssoc).Perm _
    simp only [List.append_assoc, List.singleton_append]
    exact List.perm_middle
  · show (level.left ++ (level.right ++ [op]) ++ level.nonAssoc).Perm _
    rw [← List.append_assoc, List.append_assoc (_ ++ _), List.singleton_append]
    exact List.perm_middle
  · show (level.left ++ level.right ++ (level.nonAssoc ++ [op])).Perm _
    rw [← List.append_assoc]
    exact List.perm_append_singleton op _

/-- Adding an operator to levels adds it to their operators, once. -/
theorem insertOperator_perm (op : Operator) (levels : List Level) :
    ((insertOperator op levels).flatMap Level.operators).Perm
      (op :: levels.flatMap Level.operators) := by
  induction levels with
  | nil => exact (Level.operators_push_perm (.empty op.precedence) op).append_right _
  | cons level rest ih =>
    rw [insertOperator]
    split
    · exact (Level.operators_push_perm (.empty op.precedence) op).append_right _
    split
    · exact (Level.operators_push_perm level op).append_right _
    · exact (ih.append_left level.operators).trans List.perm_middle

theorem foldl_insertOperator_perm (ops : List Operator) (levels : List Level) :
    ((ops.foldl (fun levels op => insertOperator op levels) levels).flatMap
      Level.operators).Perm (ops ++ levels.flatMap Level.operators) := by
  induction ops generalizing levels with
  | nil => exact List.Perm.refl _
  | cons op ops ih =>
    refine (ih (insertOperator op levels)).trans ?_
    exact ((insertOperator_perm op levels).append_left ops).trans List.perm_middle

/-- **The levels hold the operators of the table.** -/
theorem levels_perm (table : OperatorTable) :
    (table.levels.flatMap Level.operators).Perm table.operators := by
  simpa [levels] using foldl_insertOperator_perm table.operators []

/-- A level that an operator has joined is not empty. -/
theorem Level.operators_push_ne_nil (level : Level) (op : Operator) :
    (level.push op).operators ≠ [] := by
  intro h
  have hperm := level.operators_push_perm op
  rw [h] at hperm
  exact List.cons_ne_nil _ _ hperm.nil_eq.symm

theorem operators_ne_nil_of_mem_insertOperator {op : Operator} {levels : List Level}
    (h : ∀ level ∈ levels, level.operators ≠ []) :
    ∀ level ∈ insertOperator op levels, level.operators ≠ [] := by
  induction levels with
  | nil => simpa [insertOperator] using Level.operators_push_ne_nil _ op
  | cons level rest ih =>
    obtain ⟨hlevel, hrest⟩ := List.forall_mem_cons.mp h
    rw [insertOperator]
    split
    · exact List.forall_mem_cons.mpr ⟨Level.operators_push_ne_nil _ op, h⟩
    split
    · exact List.forall_mem_cons.mpr ⟨level.operators_push_ne_nil op, hrest⟩
    · exact List.forall_mem_cons.mpr ⟨hlevel, ih hrest⟩

/-- **No level of a table is empty.** -/
theorem operators_ne_nil_of_mem_levels (table : OperatorTable) :
    ∀ level ∈ table.levels, level.operators ≠ [] := by
  refine List.foldlRecOn (motive := fun ls : List Level => ∀ level ∈ ls, level.operators ≠ [])
    table.operators _ (by simp) fun ls hls op _ => ?_
  exact operators_ne_nil_of_mem_insertOperator hls

/-- Every operator of a level is declared. -/
theorem declares_of_mem_levels {table : OperatorTable} {op : Operator}
    (h : op ∈ table.levels.flatMap Level.operators) : table.declares op.symbol = true :=
  declares_of_mem (table.levels_perm.mem_iff.mp h)

/-! ## Levels apart -/

/-- No two operators of the levels share a symbol, and none has one that is
punctuation. -/
structure Level.Distinct (levels : List Level) : Prop where
  nodup : ((levels.flatMap Level.operators).map (·.symbol)).Nodup
  notMem_punctuation : ∀ op ∈ levels.flatMap Level.operators, op.symbol ∉ punctuation

theorem Valid.distinct {table : OperatorTable} (h : table.Valid) :
    Level.Distinct table.levels where
  nodup := (table.levels_perm.map _).nodup_iff.mpr h.nodup
  notMem_punctuation := fun _ hop => h.notMem_punctuation (declares_of_mem_levels hop)

namespace Level
variable {level : Level} {tighter : List Level}

/-- The symbols of a level are no symbols of the tighter ones. -/
def Apart (level : Level) (tighter : List Level) : Prop :=
  ∀ op ∈ level.operators, ∀ other ∈ tighter.flatMap operators, op.symbol ≠ other.symbol

/-- Distinct symbols are distinct at the first level and at the tighter ones, and apart. -/
theorem nodup_symbols_cons (h : (((level :: tighter).flatMap operators).map (·.symbol)).Nodup) :
    (level.operators.map (·.symbol)).Nodup ∧
      ((tighter.flatMap operators).map (·.symbol)).Nodup ∧ Apart level tighter := by
  rw [List.flatMap_cons, List.map_append] at h
  obtain ⟨hlevel, htighter, hne⟩ := List.nodup_append.mp h
  exact ⟨hlevel, htighter, fun _ hop _ hother =>
    hne _ (List.mem_map_of_mem hop) _ (List.mem_map_of_mem hother)⟩

theorem Distinct.nodup_level (h : Distinct (level :: tighter)) :
    (level.operators.map (·.symbol)).Nodup := (nodup_symbols_cons h.nodup).1

theorem Distinct.tail (h : Distinct (level :: tighter)) : Distinct tighter := by
  refine ⟨(nodup_symbols_cons h.nodup).2.1, fun op hop => h.notMem_punctuation op ?_⟩
  rw [List.flatMap_cons]
  exact List.mem_append_right _ hop

theorem Distinct.apart (h : Distinct (level :: tighter)) : Apart level tighter :=
  (nodup_symbols_cons h.nodup).2.2

/-- Operators of two associativities differ in their symbols. -/
theorem symbol_ne_of_group_ne (h : (level.operators.map (·.symbol)).Nodup) {a b : Associativity}
    (hab : a ≠ b) {op other : Operator} (hop : op ∈ level.group a)
    (hother : other ∈ level.group b) : op.symbol ≠ other.symbol := by
  rw [operators, List.map_append, List.map_append] at h
  obtain ⟨hlr, -, hn⟩ := List.nodup_append.mp h
  obtain ⟨-, -, hr⟩ := List.nodup_append.mp hlr
  simp only [List.mem_append] at hn
  have hm := List.mem_map_of_mem (f := (·.symbol)) hop
  have hm' := List.mem_map_of_mem (f := (·.symbol)) hother
  cases a <;> cases b
  case left.left | right.right | nonAssoc.nonAssoc => exact absurd rfl hab
  case left.right => exact hr _ hm _ hm'
  case right.left => exact (hr _ hm' _ hm).symm
  case left.nonAssoc => exact hn _ (.inl hm) _ hm'
  case nonAssoc.left => exact (hn _ (.inl hm') _ hm).symm
  case right.nonAssoc => exact hn _ (.inr hm) _ hm'
  case nonAssoc.right => exact (hn _ (.inr hm') _ hm).symm

/-- **A symbol tells the operator** of a level, and its associativity. -/
theorem eq_of_symbol_eq (h : (level.operators.map (·.symbol)).Nodup) {a b : Associativity}
    {op other : Operator} (hop : op ∈ level.group a) (hother : other ∈ level.group b)
    (heq : op.symbol = other.symbol) : a = b ∧ op = other := by
  refine ⟨by_contra fun hab => symbol_ne_of_group_ne h hab hop hother heq, ?_⟩
  exact List.inj_on_of_nodup_map h (mem_operators_of_mem_group hop)
    (mem_operators_of_mem_group hother) heq

end Level

end Fixity.OperatorTable
