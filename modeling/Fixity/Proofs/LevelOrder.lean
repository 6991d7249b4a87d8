import Mathlib.Data.List.Sort
import Fixity.Proofs.Levels

/-! # The order of the levels

The levels of a table stand in the order of their precedences, one for each precedence that
the table has operators of, and each holds the operators of its precedence, split by
associativity, in the order of their declaration (`OperatorTable.sorts_levels`).  So the
levels are determined by the precedences that occur and by the operators of each: they can
be written down without inserting anything (`OperatorTable.levels_eq_map`).

Together they hold each operator of the table once, in a place that its precedence and its
associativity tell (`OperatorTable.levels_ordered_partition`).
-/
namespace Fixity.OperatorTable

/-- The operators of one precedence and one associativity. -/
def select (ops : List Operator) (k : Int32) (a : Associativity) : List Operator :=
  ops.filter fun op => op.precedence = k ∧ op.associativity = a

theorem mem_select {ops : List Operator} {k : Int32} {a : Associativity} {op : Operator} :
    op ∈ select ops k a ↔ op ∈ ops ∧ op.precedence = k ∧ op.associativity = a := by
  simp [select]

/-- The level of one precedence. -/
def levelAt (ops : List Operator) (k : Int32) : Level :=
  ⟨k, select ops k .left, select ops k .right, select ops k .nonAssoc⟩

theorem group_levelAt (ops : List Operator) (k : Int32) (a : Associativity) :
    (levelAt ops k).group a = select ops k a := by
  cases a <;> rfl

/-- A level is given by its precedence and its parts. -/
theorem Level.ext_group {level level' : Level} (hk : level.precedence = level'.precedence)
    (h : ∀ a, level.group a = level'.group a) : level = level' := by
  obtain ⟨k, left, right, nonAssoc⟩ := level
  obtain ⟨k', left', right', nonAssoc'⟩ := level'
  cases hk
  cases h .left
  cases h .right
  cases h .nonAssoc
  rfl

/-- An operator more joins the level of its precedence. -/
theorem levelAt_append_of_eq (ops : List Operator) {op : Operator} {k : Int32}
    (hk : op.precedence = k) : levelAt (ops ++ [op]) k = (levelAt ops k).push op := by
  apply Level.ext_group
  · rw [Level.precedence_push]
    rfl
  · intro a
    rw [Level.group_push, group_levelAt, group_levelAt, select, List.filter_append]
    by_cases ha : op.associativity = a <;> simp [select, hk, ha]

/-- It joins no other level. -/
theorem levelAt_append_of_ne (ops : List Operator) {op : Operator} {k : Int32}
    (hk : op.precedence ≠ k) : levelAt (ops ++ [op]) k = levelAt ops k := by
  refine Level.ext_group (by rfl) fun a => ?_
  simp [group_levelAt, select, hk]

theorem levelAt_eq_empty {ops : List Operator} {k : Int32} (h : ∀ op ∈ ops, op.precedence ≠ k) :
    levelAt ops k = .empty k := by
  refine Level.ext_group (by rfl) fun a => ?_
  rw [group_levelAt]
  cases a <;> exact List.filter_eq_nil_iff.mpr fun op hop => by simp [h op hop]

/-! ## Inserting an operator -/

/-- **Levels that sort operators**: they ascend, there is one for each precedence that
occurs, and each holds the operators of its precedence. -/
structure Sorts (ops : List Operator) (levels : List Level) : Prop where
  ascending : (levels.map (·.precedence)).Pairwise (· < ·)
  mem_iff : ∀ k, k ∈ levels.map (·.precedence) ↔ k ∈ ops.map (·.precedence)
  eq_levelAt : ∀ level ∈ levels, level = levelAt ops level.precedence

/-- Inserting an operator adds its precedence. -/
theorem precedence_mem_insertOperator {op : Operator} {levels : List Level} {k : Int32} :
    k ∈ (insertOperator op levels).map (·.precedence) ↔
      k = op.precedence ∨ k ∈ levels.map (·.precedence) := by
  induction levels with
  | nil => simp [insertOperator, Level.empty]
  | cons level rest ih =>
    rw [insertOperator]
    split
    · simp [Level.empty]
    · split
      · rename_i heq
        simp [heq]
      · simp only [List.map_cons, List.mem_cons, ih]
        exact or_left_comm

theorem ascending_insertOperator {op : Operator} {levels : List Level}
    (h : (levels.map (·.precedence)).Pairwise (· < ·)) :
    ((insertOperator op levels).map (·.precedence)).Pairwise (· < ·) := by
  induction levels with
  | nil => simp [insertOperator]
  | cons level rest ih =>
    obtain ⟨hlevel, hrest⟩ := List.pairwise_cons.mp h
    rw [insertOperator]
    split
    · rename_i hlt
      rw [List.map_cons, Level.precedence_push]
      refine List.pairwise_cons.mpr ⟨?_, h⟩
      intro k hk
      rcases List.mem_cons.mp hk with rfl | hk
      · exact hlt
      · exact Int32.lt_trans hlt (hlevel k hk)
    · split
      · rw [List.map_cons, Level.precedence_push]
        exact h
      · rename_i hlt hne
        refine List.pairwise_cons.mpr ⟨?_, ih hrest⟩
        intro k hk
        rcases precedence_mem_insertOperator.mp hk with rfl | hk
        · grind
        · exact hlevel k hk

/-- The levels after an insertion, of which each was the level of its precedence. -/
theorem eq_levelAt_insertOperator {ops : List Operator} {op : Operator} {levels : List Level}
    (hasc : (levels.map (·.precedence)).Pairwise (· < ·))
    (hlevels : ∀ level ∈ levels, level = levelAt ops level.precedence)
    (hnew : op.precedence ∉ levels.map (·.precedence) →
      levelAt ops op.precedence = .empty op.precedence) :
    ∀ level ∈ insertOperator op levels, level = levelAt (ops ++ [op]) level.precedence := by
  -- Levels of other precedences stay as they are.
  have hkeep : ∀ level, op.precedence ≠ level.precedence →
      level = levelAt ops level.precedence → level = levelAt (ops ++ [op]) level.precedence := by
    intro level hne h
    rwa [levelAt_append_of_ne ops hne]
  have hopen : op.precedence ∉ levels.map (·.precedence) →
      (Level.empty op.precedence).push op =
        levelAt (ops ++ [op]) ((Level.empty op.precedence).push op).precedence := by
    intro h
    rw [Level.precedence_push, ← hnew h]
    exact (levelAt_append_of_eq ops rfl).symm
  induction levels with
  | nil => simpa [insertOperator] using hopen (by simp)
  | cons level rest ih =>
    obtain ⟨hbelow, hrest⟩ := List.pairwise_cons.mp hasc
    obtain ⟨hlevel, htail⟩ := List.forall_mem_cons.mp hlevels
    have habove : ∀ l ∈ rest, level.precedence < l.precedence :=
      fun l hl => hbelow _ (List.mem_map_of_mem hl)
    rw [insertOperator]
    split
    · rename_i hlt
      have hne : ∀ l ∈ level :: rest, op.precedence ≠ l.precedence := by
        intro l hl
        rcases List.mem_cons.mp hl with rfl | hl
        · exact Int32.ne_of_lt hlt
        · exact Int32.ne_of_lt (Int32.lt_trans hlt (habove l hl))
      refine List.forall_mem_cons.mpr ⟨hopen ?_, fun l hl => hkeep l (hne l hl) (hlevels l hl)⟩
      intro hmem
      obtain ⟨l, hl, hk⟩ := List.mem_map.mp hmem
      exact hne l hl hk.symm
    · split
      · rename_i heq
        refine List.forall_mem_cons.mpr ⟨?_, fun l hl => hkeep l ?_ (htail l hl)⟩
        · rw [Level.precedence_push, levelAt_append_of_eq ops heq, ← hlevel]
        · rw [heq]
          exact Int32.ne_of_lt (habove l hl)
      · rename_i hne
        have hcons : op.precedence ∉ rest.map (·.precedence) →
            op.precedence ∉ (level :: rest).map (·.precedence) := by
          intro h hmem
          rcases List.mem_cons.mp hmem with heq | hmem
          · exact hne heq
          · exact h hmem
        refine List.forall_mem_cons.mpr ⟨hkeep level hne hlevel, ?_⟩
        exact ih hrest htail (fun h => hnew (hcons h)) fun h => hopen (hcons h)

/-- **Inserting an operator keeps levels sorted.** -/
theorem Sorts.insert {ops : List Operator} {levels : List Level} (h : Sorts ops levels)
    (op : Operator) : Sorts (ops ++ [op]) (insertOperator op levels) where
  ascending := ascending_insertOperator h.ascending
  mem_iff k := by
    rw [precedence_mem_insertOperator, h.mem_iff k, List.map_append, List.mem_append,
      List.map_singleton, List.mem_singleton]
    exact or_comm
  eq_levelAt := by
    refine eq_levelAt_insertOperator h.ascending h.eq_levelAt fun hk => levelAt_eq_empty ?_
    intro o ho heq
    exact hk ((h.mem_iff _).mpr (List.mem_map.mpr ⟨o, ho, heq⟩))

/-! ## The levels of a table -/

/-- **The levels of a table sort its operators.** -/
theorem sorts_levels (table : OperatorTable) : Sorts table.operators table.levels := by
  have hfold : ∀ ops seen levels, Sorts seen levels → Sorts (seen ++ ops)
      (ops.foldl (fun levels op => insertOperator op levels) levels) := by
    intro ops
    induction ops with
    | nil => intro seen levels h; simpa using h
    | cons op ops ih =>
      intro seen levels h
      simpa using ih (seen ++ [op]) _ (h.insert op)
  exact hfold table.operators [] [] ⟨.nil, by simp, by simp⟩

/-- The precedences of a table, loosest first. -/
def precedences (table : OperatorTable) : List Int32 := table.levels.map (·.precedence)

theorem mem_precedences {table : OperatorTable} {k : Int32} :
    k ∈ table.precedences ↔ ∃ op ∈ table.operators, op.precedence = k :=
  (table.sorts_levels.mem_iff k).trans List.mem_map

theorem precedences_ascending (table : OperatorTable) : table.precedences.Pairwise (· < ·) :=
  table.sorts_levels.ascending

/-- The levels of some precedences. -/
abbrev levelsAt (table : OperatorTable) (ks : List Int32) : List Level :=
  ks.map (levelAt table.operators)

theorem levelsAt_cons (table : OperatorTable) (k : Int32) (ks : List Int32) :
    table.levelsAt (k :: ks) = levelAt table.operators k :: table.levelsAt ks := rfl

/-- **The levels of a table, written down**: for each precedence in ascending order the
operators that have it. -/
theorem levels_eq_map (table : OperatorTable) :
    table.levels = table.levelsAt table.precedences := by
  rw [precedences, levelsAt, List.map_map]
  calc table.levels = table.levels.map id := table.levels.map_id.symm
    _ = table.levels.map _ := List.map_congr_left fun level h => table.sorts_levels.eq_levelAt level h

instance : Std.Antisymm (α := Int32) (· < ·) where
  antisymm _ _ h h' := absurd h' (Int32.lt_asymm h)

instance : Std.Irrefl (α := Int32) (· < ·) where
  irrefl _ := Int32.lt_irrefl

/-- **A ranking of a table**: the precedences that its operators have, loosest first. -/
structure Ranking (table : OperatorTable) (ks : List Int32) : Prop where
  ascending : ks.Pairwise (· < ·)
  mem_iff : ∀ k, k ∈ ks ↔ ∃ op ∈ table.operators, op.precedence = k

theorem ranking_precedences (table : OperatorTable) : table.Ranking table.precedences :=
  ⟨table.precedences_ascending, fun _ => mem_precedences⟩

/-- A table has one ranking. -/
theorem Ranking.eq_precedences {table : OperatorTable} {ks : List Int32} (h : table.Ranking ks) :
    ks = table.precedences := by
  refine List.Perm.eq_of_pairwise' h.ascending table.precedences_ascending ?_
  refine (List.perm_ext_iff_of_nodup (h.ascending.imp Int32.ne_of_lt)
    (table.precedences_ascending.imp Int32.ne_of_lt)).mpr fun k => ?_
  exact (h.mem_iff k).trans mem_precedences.symm

/-- A table with more operators has the precedences of the other among its own. -/
theorem precedences_sublist {table table' : OperatorTable}
    (h : table.operators ⊆ table'.operators) : table.precedences.Sublist table'.precedences := by
  refine List.sublist_of_subperm_of_pairwise (List.subperm_of_subset ?_ ?_)
    table.precedences_ascending table'.precedences_ascending
  · exact table.precedences_ascending.imp Int32.ne_of_lt
  · intro k hk
    obtain ⟨op, hop, rfl⟩ := mem_precedences.mp hk
    exact mem_precedences.mpr ⟨op, h hop, rfl⟩

/-! ## The levels as a partition -/

theorem Level.isEmpty_eq_false_iff {level : Level} :
    level.isEmpty = false ↔ level.operators ≠ [] := by
  simp only [isEmpty, operators, Bool.and_eq_false_iff, List.isEmpty_eq_false_iff, ne_eq,
    List.append_eq_nil_iff, not_and_or]

/-- The parts of a level are the operators of its precedence, by their associativities. -/
theorem group_of_mem_levels {table : OperatorTable} {level : Level} (h : level ∈ table.levels)
    (a : Associativity) : level.group a = select table.operators level.precedence a := by
  rw [← group_levelAt, ← table.sorts_levels.eq_levelAt level h]

/-- Levels of one precedence are the same. -/
theorem eq_of_precedence_eq {table : OperatorTable} {level level' : Level}
    (h : level ∈ table.levels) (h' : level' ∈ table.levels)
    (heq : level.precedence = level'.precedence) : level = level' := by
  rw [table.sorts_levels.eq_levelAt level h, table.sorts_levels.eq_levelAt level' h', heq]

/-- **An operator has one place**: a part of a level. -/
theorem existsUnique_place {table : OperatorTable} {op : Operator} (hop : op ∈ table.operators) :
    ∃! place : Level × Associativity,
      place.1 ∈ table.levels ∧ op ∈ place.1.group place.2 := by
  obtain ⟨level, hlevel, hk⟩ := List.mem_map.mp (mem_precedences.mpr ⟨op, hop, rfl⟩)
  refine ⟨(level, op.associativity), ⟨hlevel, ?_⟩, ?_⟩
  · rw [group_of_mem_levels hlevel]
    exact mem_select.mpr ⟨hop, hk.symm, rfl⟩
  · rintro ⟨level', a⟩ ⟨hlevel', hmem⟩
    rw [group_of_mem_levels hlevel'] at hmem
    obtain ⟨-, hk', rfl⟩ := mem_select.mp hmem
    exact congrArg (·, op.associativity)
      (eq_of_precedence_eq hlevel' hlevel (hk'.symm.trans hk.symm))

/-- The order of declaration does not matter for which precedences there are. -/
theorem precedences_eq_of_perm {table table' : OperatorTable}
    (h : table.operators.Perm table'.operators) : table.precedences = table'.precedences :=
  (precedences_sublist h.subset).antisymm (precedences_sublist h.symm.subset)

/-- **Levels of a table in another order** differ by the order inside their parts. -/
theorem forall₂_levels_of_perm {table table' : OperatorTable}
    (h : table.operators.Perm table'.operators) :
    List.Forall₂ (fun level level' => level.precedence = level'.precedence ∧
      ∀ a, (level.group a).Perm (level'.group a)) table.levels table'.levels := by
  rw [levels_eq_map table, levels_eq_map table', precedences_eq_of_perm h,
    List.forall₂_map_left_iff, List.forall₂_map_right_iff]
  refine List.forall₂_same.mpr fun k _ => ⟨rfl, fun a => ?_⟩
  rw [group_levelAt, group_levelAt]
  exact h.filter _

/-- **The levels are an ordered partition of the table.**  Their precedences ascend, and they
are the ones that occur; no level is empty.  The part of a level for an associativity is what
the table declares with this precedence and this associativity, in the order of declaration.
So every operator has one place, and taken together the levels hold each as often as the
table does.  A table in another order has the same levels, up to the order inside the parts. -/
theorem levels_ordered_partition (table : OperatorTable) :
    (table.levels.map (·.precedence)).Pairwise (· < ·) ∧
    (∀ k, k ∈ table.levels.map (·.precedence) ↔ ∃ op ∈ table.operators, op.precedence = k) ∧
    (∀ level ∈ table.levels, level.isEmpty = false ∧ ∀ a, level.group a =
      table.operators.filter fun op => op.precedence = level.precedence ∧ op.associativity = a) ∧
    (∀ op ∈ table.operators, ∃! place : Level × Associativity,
      place.1 ∈ table.levels ∧ op ∈ place.1.group place.2) ∧
    (table.levels.flatMap fun level =>
      level.group .left ++ level.group .right ++ level.group .nonAssoc).Perm table.operators ∧
    ∀ table' : OperatorTable, table.operators.Perm table'.operators →
      List.Forall₂ (fun level level' => level.precedence = level'.precedence ∧
        ∀ a, (level.group a).Perm (level'.group a)) table.levels table'.levels := by
  refine ⟨table.precedences_ascending, fun k => mem_precedences, fun level hlevel => ⟨?_, ?_⟩,
    fun op hop => existsUnique_place hop, table.levels_perm, fun table' => forall₂_levels_of_perm⟩
  · exact Level.isEmpty_eq_false_iff.mpr (table.operators_ne_nil_of_mem_levels level hlevel)
  · exact group_of_mem_levels hlevel

/-- Precedences at both ends of their range, and an operator that is declared twice. -/
theorem levels_ordered_partition_limits :
    let table : OperatorTable :=
      ⟨[.left "+" 6, .right "^" 2147483647, .left "-" 6, .nonAssoc "=" (-2147483648), .left "+" 6,
        .right "++" 6]⟩
    let table' : OperatorTable := ⟨table.operators.reverse⟩
    let level : Level := ⟨6, [.left "+" 6, .left "-" 6, .left "+" 6], [.right "++" 6], []⟩
    table.operators.Perm table'.operators ∧ level ∈ table.levels ∧
      .left "+" 6 ∈ table.operators ∧
      (table.levels.map (·.precedence)).Pairwise (· < ·) ∧
      level.group .left = table.operators.filter
        (fun op => op.precedence = 6 ∧ op.associativity = .left) ∧
      (∃! place : Level × Associativity,
        place.1 ∈ table.levels ∧ .left "+" 6 ∈ place.1.group place.2) ∧
      List.Forall₂ (fun level level' => level.precedence = level'.precedence ∧
        ∀ a, (level.group a).Perm (level'.group a)) table.levels table'.levels := by
  intro table table' level
  have hperm : table.operators.Perm table'.operators := (List.reverse_perm _).symm
  have hlevel : level ∈ table.levels := by decide +kernel
  have hop : .left "+" 6 ∈ table.operators := by decide +kernel
  obtain ⟨hascending, -, hlevels, hplace, -, horder⟩ := levels_ordered_partition table
  exact ⟨hperm, hlevel, hop, hascending, (hlevels level hlevel).2 .left, hplace _ hop,
    horder table' hperm⟩

end Fixity.OperatorTable
