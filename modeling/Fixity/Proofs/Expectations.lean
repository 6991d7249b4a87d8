import Fixity.Proofs.GrammarRelations
import Fixity.Proofs.Merging

/-! # Expectations in any order

Which order the alternatives for an operator have decides in which order their failures are
merged, and which of them are recorded before one is found.  The first changes only the
order of expectations.  The second can change the record itself; but what is recorded then
lies at the operator, and the operand behind it records something further on before
anything is reported.

So two runs are kept side by side (`anyOrder`) whose records agree up to the order of
expectations, or lie both before the cursor: the next failure replaces them.
-/
namespace Fixity

/-- The same texts, in any order. -/
def SameTexts (es es' : List String) : Prop := ∀ s, s ∈ es ↔ s ∈ es'

theorem SameTexts.refl (es : List String) : SameTexts es es := fun _ => Iff.rfl

theorem SameTexts.trans {es es' es'' : List String} (h : SameTexts es es')
    (h' : SameTexts es' es'') : SameTexts es es'' :=
  fun s => (h s).trans (h' s)

theorem SameTexts.symm {es es' : List String} (h : SameTexts es es') : SameTexts es' es :=
  fun s => (h s).symm

/-! ## Failures up to the order of their expectations -/

namespace Failure

theorem expected_unmet (c : Cursor) (text : String) : (c.unmet text).expected = [text] := by
  unfold Cursor.unmet
  split <;> rfl

/-- **What a merged failure expects**: the expectations of the deeper one, or of both. -/
theorem mem_expected_merge {f g : Failure} {s : String} :
    s ∈ (f.merge g).expected ↔
      g.position ≤ f.position ∧ s ∈ f.expected ∨ f.position ≤ g.position ∧ s ∈ g.expected := by
  rcases Nat.lt_trichotomy f.position g.position with hlt | heq | hgt
  · have hnot : ¬ g.position ≤ f.position := by omega
    simp [merge_of_gt hlt, hnot, Nat.le_of_lt hlt]
  · simp [merge_of_eq heq, mem_foldl_addExpectation, heq]
  · have hnot : ¬ f.position ≤ g.position := by omega
    simp [merge_of_lt hgt, hnot, Nat.le_of_lt hgt]

namespace Agrees
variable {f f' f'' g g' : Failure}

theorem refl (f : Failure) : f.Agrees SameTexts f := ⟨rfl, .refl _⟩

theorem trans (h : f.Agrees SameTexts f') (h' : f'.Agrees SameTexts f'') :
    f.Agrees SameTexts f'' :=
  ⟨h.position.trans h'.position, h.expected.trans h'.expected⟩

theorem symm (h : f.Agrees SameTexts g) : g.Agrees SameTexts f :=
  ⟨h.position.symm, h.expected.symm⟩

theorem merge (h : f.Agrees SameTexts g) (h' : f'.Agrees SameTexts g') :
    (f.merge f').Agrees SameTexts (g.merge g') where
  position := by rw [position_merge, position_merge, h.position, h'.position]
  expected s := by
    rw [mem_expected_merge, mem_expected_merge, h.position, h'.position, h.expected s,
      h'.expected s]

end Agrees

end Failure

/-! ## Records up to the order of expectations -/

namespace Cursor
variable {c c' d d' : Cursor} {f g : Failure}

/-- Records that agree up to the order of expectations. -/
def SameRecord (c d : Cursor) : Prop :=
  Option.Rel (Failure.Agrees SameTexts) c.furthest d.furthest

theorem SameRecord.refl (c : Cursor) : c.SameRecord c := by
  unfold SameRecord
  cases c.furthest with
  | none => exact .none
  | some r => exact .some (.refl r)

theorem SameRecord.trans (h : c.SameRecord c') (h' : c'.SameRecord d) : c.SameRecord d := by
  unfold SameRecord at *
  generalize c.furthest = r at *
  generalize c'.furthest = r' at *
  generalize d.furthest = r'' at *
  cases h with
  | none => exact h'
  | some hr =>
    cases h' with
    | some hr' => exact .some (hr.trans hr')

theorem SameRecord.symm (h : c.SameRecord d) : d.SameRecord c := by
  unfold SameRecord at *
  generalize c.furthest = r at *
  generalize d.furthest = r' at *
  cases h with
  | none => exact .none
  | some hr => exact .some hr.symm

theorem SameRecord.explored_eq (h : c.SameRecord d) : c.explored = d.explored := by
  unfold SameRecord at h
  unfold explored
  generalize c.furthest = r at *
  generalize d.furthest = r' at *
  cases h with
  | none => rfl
  | some hr => exact congrArg (· + 1) hr.position

theorem SameRecord.remember (h : c.SameRecord d) (hf : f.Agrees SameTexts g) :
    (c.remember f).SameRecord (d.remember g) := by
  unfold SameRecord at h
  refine .some ?_
  generalize c.furthest = r at *
  generalize d.furthest = r' at *
  cases h with
  | none => exact hf
  | some hr => exact hr.merge hf

/-- A failure behind the record replaces it. -/
theorem furthest_remember_of_le (h : c.explored ≤ f.position) :
    (c.remember f).furthest = some f := by
  unfold explored at h
  unfold Cursor.remember
  cases hr : c.furthest with
  | none => rfl
  | some r =>
    rw [hr] at h
    simp only at h ⊢
    rw [Failure.merge, if_neg (by omega), if_pos (by omega)]

/-- A failure before the record changes nothing. -/
theorem furthest_remember_of_lt (h : f.position + 1 < c.explored) :
    (c.remember f).furthest = c.furthest := by
  unfold explored at h
  unfold Cursor.remember
  cases hr : c.furthest with
  | none =>
    rw [hr] at h
    exact absurd h (Nat.not_lt_zero _)
  | some r =>
    rw [hr] at h
    simp only at h ⊢
    rw [Failure.merge, if_pos (by omega)]

/-! ## The relation -/

/-- **Cursors at one place**, whose records agree or lie before it. -/
structure Abreast (c d : Cursor) : Prop where
  tokens : c.tokens = d.tokens
  position : c.position = d.position
  record : c.SameRecord d ∨ c.explored ≤ c.position ∧ d.explored ≤ d.position

/-- **Failures that agree**, with records that do. -/
structure FailsAbreast (f : Failure) (c : Cursor) (g : Failure) (d : Cursor) : Prop where
  tokens : c.tokens = d.tokens
  isFatal : f.isFatal = g.isFatal
  kind : f.kind = g.kind
  agrees : f.Agrees SameTexts g
  record : c.SameRecord d

theorem Abreast.unmet_eq (h : c.Abreast d) (expected : String) :
    c.unmet expected = d.unmet expected := by
  unfold Cursor.unmet
  rw [Cursor.peek?_congr h.tokens h.position, h.position]

/-- Recording a failure from here on makes the records agree. -/
theorem Abreast.remember (h : c.Abreast d) (hf : f.Agrees SameTexts g)
    (hpos : c.position ≤ f.position) : (c.remember f).SameRecord (d.remember g) := by
  rcases h.record with hrec | ⟨hc, hd⟩
  · exact hrec.remember hf
  · have hg := hf.position
    have hcd := h.position
    unfold SameRecord
    rw [furthest_remember_of_le (by omega), furthest_remember_of_le (by omega)]
    exact .some hf

theorem Abreast.advance (h : c.Abreast d) (hnext : c.hasNext = true) :
    c.advance.Abreast d.advance := by
  have hnext' : d.hasNext = true := Cursor.hasNext_congr h.tokens h.position ▸ hnext
  rw [Cursor.advance, Cursor.advance, if_pos hnext, if_pos hnext']
  refine ⟨h.tokens, congrArg (· + 1) h.position, ?_⟩
  rcases h.record with hrec | ⟨hc, hd⟩
  · exact .inl hrec
  · exact .inr ⟨Nat.le_succ_of_le hc, Nat.le_succ_of_le hd⟩

end Cursor

/-- **Runs that differ in the order of expectations.** -/
def anyOrder : RunRelation where
  near := Cursor.Abreast
  fails := Cursor.FailsAbreast
  length h := by rw [h.tokens]
  position h := h.position
  isFatal h := h.isFatal
  failPosition h := h.agrees.position
  advance := Cursor.Abreast.advance
  reject {c d} expected h := by
    have hpos := c.position_unmet expected
    rw [← h.unmet_eq expected]
    exact ⟨h.tokens, rfl, rfl, .refl _, h.remember (.refl _) (Nat.le_of_eq hpos.symm)⟩
  giveUp _ h := ⟨h.tokens, rfl, .inl h.record⟩
  moved _ _ h := ⟨h.tokens, h.isFatal, h.kind, h.agrees, h.record⟩
  merge {f g f' g' _ _ _ _} h h' hf hf' := by
    refine ⟨h'.tokens, ?_, ?_, h.agrees.merge h'.agrees, h'.record⟩
    · rw [Failure.isFatal_merge hf hf',
        Failure.isFatal_merge (h.isFatal ▸ hf) (h'.isFatal ▸ hf')]
    · unfold Failure.merge
      rw [h.agrees.position, h'.agrees.position]
      split
      · exact h.kind
      split
      · exact h'.kind
      · exact h.kind
  named {f g c d} name h hf :=
    have hagrees : Failure.Agrees SameTexts { f with expected := [name] }
        { g with expected := [name] } := ⟨h.agrees.position, .refl _⟩
    ⟨h.tokens, h.isFatal, h.kind, hagrees, h.record.remember hagrees⟩
  toFatal h := ⟨h.tokens, rfl, h.kind, ⟨h.agrees.position, h.agrees.expected⟩, h.record⟩

instance : anyOrder.SameTokens := ⟨fun h => h.tokens⟩

/-- **What such runs report** agrees up to the order of expectations. -/
theorem anyOrder_reports : anyOrder.Reports SameTexts where
  fails h := Cursor.matches_errorFor h.record h.agrees h.isFatal h.kind
  trailing {c d} h := by
    have hunmet := h.unmet_eq "end of input"
    have hpos := c.position_unmet "end of input"
    rw [← hunmet]
    rcases h.record with hrec | ⟨hc, hd⟩
    · exact Cursor.matches_errorFor hrec (.refl _) rfl rfl
    -- A record before the cursor says nothing about what is left there.
    · have hle : c.explored ≤ (c.unmet "end of input").asTrailing.position := by
        show c.explored ≤ (c.unmet "end of input").position
        omega
      have hle' : d.explored ≤ (c.unmet "end of input").asTrailing.position := by
        show d.explored ≤ (c.unmet "end of input").position
        have := h.position
        omega
      rw [Cursor.errorFor_of_explored_le hle, Cursor.errorFor_of_explored_le hle']
      exact Failure.Agrees.toError (.refl _) rfl

/-! ## Operators in any order -/

namespace Cursor
variable {c c' d d' : Cursor} {f g : Failure}

/-- The cursor after some alternatives have failed at the token here: the record lies no
further than that token, or is what it was. -/
structure Lingered (c c' : Cursor) : Prop where
  tokens : c'.tokens = c.tokens
  position : c'.position = c.position
  explored_le : c.explored ≤ c.position + 1 → c'.explored ≤ c.position + 1
  furthest_eq : c.position + 1 < c.explored → c'.furthest = c.furthest

theorem Lingered.refl (c : Cursor) : c.Lingered c := ⟨rfl, rfl, id, fun _ => rfl⟩

theorem Lingered.remember (h : c.Lingered c') (hf : f.position = c.position) :
    c.Lingered (c'.remember f) where
  tokens := h.tokens
  position := h.position
  explored_le hle := by
    have := h.explored_le hle
    rw [explored_remember]
    omega
  furthest_eq hlt := by
    have heq := h.furthest_eq hlt
    have hexplored : c'.explored = c.explored := by
      unfold explored
      rw [heq]
    rw [furthest_remember_of_lt (by omega), heq]

/-- Behind the token, it does not matter what has failed at it. -/
theorem Abreast.of_lingered (h : c.Abreast d) (hc : c.Lingered c') (hd : d.Lingered d')
    (hnext : c.hasNext = true) : c'.advance.Abreast d'.advance := by
  have hnext' : c'.hasNext = true := (Cursor.hasNext_congr hc.tokens hc.position).trans hnext
  have hnext'' : d'.hasNext = true := by
    rw [Cursor.hasNext_congr hd.tokens hd.position, ← Cursor.hasNext_congr h.tokens h.position, hnext]
  rw [Cursor.advance, Cursor.advance, if_pos hnext', if_pos hnext'']
  refine ⟨?_, ?_, ?_⟩
  · show c'.tokens = d'.tokens
    rw [hc.tokens, hd.tokens, h.tokens]
  · show c'.position + 1 = d'.position + 1
    rw [hc.position, hd.position, h.position]
  · show c'.SameRecord d' ∨ c'.explored ≤ c'.position + 1 ∧ d'.explored ≤ d'.position + 1
    rw [hc.position, hd.position]
    have hpos := h.position
    by_cases hfar : c.position + 1 < c.explored
    · left
      rcases h.record with hrec | ⟨hle, -⟩
      · have heq := hrec.explored_eq
        unfold SameRecord
        rw [hc.furthest_eq hfar, hd.furthest_eq (by omega)]
        exact hrec
      · omega
    · right
      refine ⟨hc.explored_le (by omega), hd.explored_le ?_⟩
      rcases h.record with hrec | ⟨-, hle⟩
      · have heq := hrec.explored_eq
        omega
      · omega

end Cursor

namespace Grammar

/-- The token is the symbol of an operator of the group. -/
def Starts (group : List Operator) (c : Cursor) (op : Operator) : Prop :=
  op ∈ group ∧ c.peek?.bind Token.symbol? = some op.symbol

/-- What alternatives for operators leave behind that have all failed at `c`: the texts
that they expected, and a record that has been told. -/
structure Missed (c : Cursor) (texts : String → Prop) (f : Failure) (c' : Cursor) : Prop where
  lingered : c.Lingered c'
  position : f.position = c.position
  isFatal : f.isFatal = false
  kind : f.kind = .unexpected
  expected (s : String) : s ∈ f.expected ↔ texts s
  record : c'.SameRecord (c.remember f)

/-- **What a group of operators reads**: one of its operators, if the token is the symbol of
one; otherwise each of them is expected. -/
inductive Picks (c : Cursor) (group : List Operator) (texts : String → Prop) :
    Outcome Operator → Prop where
  | ok {op : Operator} {c' : Cursor} (hop : Starts group c op) (h : c.Lingered c') :
      Picks c group texts (.ok op c'.advance)
  | fail {f : Failure} {c' : Cursor} (hnone : ∀ op, ¬ Starts group c op)
      (h : Missed c (fun s => texts s ∨ ∃ op ∈ group, s = Rule.quote op.symbol) f c') :
      Picks c group texts (.fail f c')

/-- The alternative for one operator. -/
def operatorParser (op : Operator) : Parser Operator :=
  .token (fun token => if Token.symbol? token = some op.symbol then some op else none)
    (Rule.quote op.symbol)

theorem operators_eq (group : List Operator) :
    operators group = Parser.firstOf (group.map operatorParser) := by
  unfold operators Tree.operatorRule
  rw [Rule.eval_oneOf, List.map_map]
  rfl

theorem operatorParser_eq (op : Operator) (c : Cursor) :
    operatorParser op c =
      if c.peek?.bind Token.symbol? = some op.symbol then .ok op c.advance
      else .fail (c.unmet (Rule.quote op.symbol)) (c.remember (c.unmet (Rule.quote op.symbol))) := by
  unfold operatorParser Parser.token Parser.reject
  cases c.peek? with
  | none => rfl
  | some t =>
    by_cases ht : Token.symbol? t = some op.symbol
    · simp only [Option.bind_some, if_pos ht]
    · simp only [Option.bind_some, if_neg ht]

theorem Missed.mono {c c' : Cursor} {texts texts' : String → Prop} {f : Failure}
    (h : Missed c texts f c') (htexts : ∀ s, texts s ↔ texts' s) : Missed c texts' f c' :=
  { h with expected := fun s => (h.expected s).trans (htexts s) }

/-- The first alternative has failed. -/
theorem Missed.first (c : Cursor) (text : String) :
    Missed c (fun s => False ∨ s = text) (c.unmet text) ((c.remember (c.unmet text)).restore c.position) where
  lingered := (Cursor.Lingered.refl c).remember (c.position_unmet text)
  position := c.position_unmet text
  isFatal := c.isFatal_unmet text
  kind := c.kind_unmet text
  expected s := by rw [Failure.expected_unmet, List.mem_singleton, false_or]
  record := .refl _

/-- One more alternative has failed. -/
theorem Missed.next {c c' : Cursor} {texts : String → Prop} {f : Failure}
    (h : Missed c texts f c') (text : String) :
    Missed c (fun s => texts s ∨ s = text) (f.merge (c'.unmet text))
      ((c'.remember (c'.unmet text)).restore c.position) := by
  have hf := h.position
  have hpos : (c'.unmet text).position = c.position :=
    (c'.position_unmet text).trans h.lingered.position
  have hlingered := h.lingered.remember hpos
  refine ⟨⟨hlingered.tokens, rfl, hlingered.explored_le, hlingered.furthest_eq⟩, ?_,
    Failure.isFatal_merge h.isFatal (c'.isFatal_unmet text),
    Failure.kind_merge h.kind (c'.kind_unmet text), fun s => ?_, ?_⟩
  · rw [Failure.position_merge, h.position, hpos, Nat.max_self]
  · have hle : (c'.unmet text).position ≤ f.position := by omega
    have hle' : f.position ≤ (c'.unmet text).position := by omega
    rw [Failure.mem_expected_merge, h.expected s, Failure.expected_unmet, List.mem_singleton]
    simp [hle, hle']
  · rw [← Cursor.remember_remember]
    exact h.record.remember (.refl _)

/-- The other alternatives, behind one that has failed. -/
theorem Picks.cons {c : Cursor} {op : Operator} {group : List Operator} {texts : String → Prop}
    {o : Outcome Operator} (hop : c.peek?.bind Token.symbol? ≠ some op.symbol)
    (h : Picks c group (fun s => texts s ∨ s = Rule.quote op.symbol) o) :
    Picks c (op :: group) texts o := by
  cases h with
  | ok hstarts hlingered => exact .ok ⟨List.mem_cons_of_mem _ hstarts.1, hstarts.2⟩ hlingered
  | fail hnone hmissed =>
    refine .fail (fun o ho => ?_) (hmissed.mono fun s => ?_)
    · rcases List.mem_cons.mp ho.1 with rfl | hmem
      · exact hop ho.2
      · exact hnone o ⟨hmem, ho.2⟩
    · rw [List.exists_mem_cons_iff, or_assoc]

theorem picks_tryEach {c c' : Cursor} {group : List Operator} {texts : String → Prop}
    {f : Failure} (h : Missed c texts f c') :
    Picks c group texts
      (Parser.tryEach c.position (group.map operatorParser) (some f) c') := by
  induction group generalizing texts f c' with
  | nil => exact .fail (fun _ hop => nomatch hop.1) (h.mono fun s => by simp)
  | cons op group ih =>
    have hpeek : c'.peek? = c.peek? := Cursor.peek?_congr h.lingered.tokens h.lingered.position
    rw [List.map_cons, Parser.Tracks.tryEach_cons, operatorParser_eq, hpeek]
    by_cases hop : c.peek?.bind Token.symbol? = some op.symbol
    · rw [if_pos hop]
      exact .ok ⟨List.mem_cons_self, hop⟩ h.lingered
    · rw [if_neg hop, Outcome.recover_recoverable (c'.isFatal_unmet _)]
      exact .cons hop (ih (h.next _))

theorem picks_operators {group : List Operator} (hne : group ≠ []) (c : Cursor) :
    Picks c group (fun _ => False) (operators group c) := by
  obtain ⟨op, group, rfl⟩ := List.exists_cons_of_ne_nil hne
  rw [operators_eq]
  show Picks c _ _ (Parser.tryEach c.position (operatorParser op :: group.map operatorParser) none c)
  rw [Parser.Tracks.tryEach_cons, operatorParser_eq]
  by_cases hop : c.peek?.bind Token.symbol? = some op.symbol
  · rw [if_pos hop]
    exact .ok ⟨List.mem_cons_self, hop⟩ (.refl c)
  · rw [if_neg hop, Outcome.recover_recoverable (c.isFatal_unmet _)]
    exact .cons hop (picks_tryEach (.first c _))

section Groups
variable {group group' : List Operator}
  (h : SameTexts (group.map (·.symbol)) (group'.map (·.symbol)))

include h

theorem exists_same_symbol {op : Operator} (hop : op ∈ group) :
    ∃ op' ∈ group', op'.symbol = op.symbol :=
  List.mem_map.mp ((h op.symbol).mp (List.mem_map_of_mem hop))

/-- A token that starts with an operator of one group does so with one of the other. -/
theorem Starts.same_symbol {c d : Cursor} {op : Operator} (hop : Starts group c op)
    (hpeek : c.peek? = d.peek?) : ∃ op', Starts group' d op' := by
  obtain ⟨op', hmem, hsymbol⟩ := exists_same_symbol h hop.1
  exact ⟨op', hmem, by rw [← hpeek, hop.2, hsymbol]⟩

/-- Where all operators of both groups have failed, the failures agree. -/
theorem Missed.failsAbreast {c c' d d' : Cursor} {f g : Failure} (hnear : c.Abreast d)
    (hf : Missed c (fun s => False ∨ ∃ op ∈ group, s = Rule.quote op.symbol) f c')
    (hg : Missed d (fun s => False ∨ ∃ op ∈ group', s = Rule.quote op.symbol) g d') :
    Cursor.FailsAbreast f c' g d' := by
  have hagrees : f.Agrees SameTexts g := by
    refine ⟨by rw [hf.position, hg.position, hnear.position], fun s => ?_⟩
    rw [hf.expected s, hg.expected s, false_or, false_or]
    constructor
    · rintro ⟨op, hop, rfl⟩
      obtain ⟨op', hop', hsymbol⟩ := exists_same_symbol h hop
      exact ⟨op', hop', by rw [hsymbol]⟩
    · rintro ⟨op, hop, rfl⟩
      obtain ⟨op', hop', hsymbol⟩ := exists_same_symbol h.symm hop
      exact ⟨op', hop', by rw [hsymbol]⟩
  refine ⟨?_, hf.isFatal.trans hg.isFatal.symm, hf.kind.trans hg.kind.symm, hagrees, ?_⟩
  · rw [hf.lingered.tokens, hg.lingered.tokens, hnear.tokens]
  · have hrecord := hnear.remember hagrees (Nat.le_of_eq hf.position.symm)
    exact (hf.record.trans hrecord).trans hg.record.symm

/-- **Groups with the same symbols** have related runs, in whatever order they are tried. -/
theorem similar_operators (hne : group ≠ []) :
    anyOrder.Similar (fun op op' => op.symbol = op'.symbol) (operators group)
      (operators group') := by
  have hne' : group' ≠ [] := by
    obtain ⟨op, hop⟩ := List.exists_mem_of_ne_nil _ hne
    obtain ⟨op', hop', -⟩ := exists_same_symbol h hop
    exact List.ne_nil_of_mem hop'
  intro c d hnear
  have hpeek : c.peek? = d.peek? := anyOrder.peek?_eq hnear
  have hpicks := picks_operators hne c
  have hpicks' := picks_operators hne' d
  generalize operators group c = o at hpicks ⊢
  generalize operators group' d = o' at hpicks' ⊢
  cases hpicks with
  | @ok op c' hop hc =>
    cases hpicks' with
    | @ok op' d' hop' hd =>
      obtain ⟨t, ht, -⟩ := Option.bind_eq_some_iff.mp hop.2
      refine .ok ?_ (hnear.of_lingered hc hd (c.hasNext_iff_peek?.mpr ⟨t, ht⟩))
      exact Option.some.inj (hop.2.symm.trans (hpeek ▸ hop'.2))
    | fail hnone =>
      obtain ⟨op', hop'⟩ := hop.same_symbol h hpeek
      exact absurd hop' (hnone op')
  | fail hnone hf =>
    cases hpicks' with
    | ok hop' =>
      obtain ⟨op, hop⟩ := hop'.same_symbol h.symm hpeek.symm
      exact absurd hop (hnone op)
    | fail _ hg => exact .fail (hf.failsAbreast h hnear hg)

end Groups

/-- Levels with the same symbols in each group. -/
theorem levelsSimilar_anyOrder {level level' : OperatorTable.Level}
    (h : ∀ a, SameTexts ((level.group a).map (·.symbol)) ((level'.group a).map (·.symbol))) :
    LevelsSimilar anyOrder level level' where
  isEmpty a := by
    have hempty : ∀ group : List Operator,
        group.isEmpty = true ↔ ∀ s, s ∉ group.map (·.symbol) := by
      intro group
      rw [List.isEmpty_iff, ← List.eq_nil_iff_forall_not_mem, List.map_eq_nil_iff]
    rw [Bool.eq_iff_iff, hempty, hempty]
    exact forall_congr' fun s => not_congr (h a s)
  operators a hne := similar_operators (h a) hne

end Grammar

end Fixity
