import Mathlib.Data.List.Forall2
import Mathlib.Data.List.Nodup
import Fixity.Proofs.LevelOrder
import Fixity.Proofs.Soundness

/-! # Trees that respect fixities

Which trees may stand without parentheses can be said node by node: the operator at the root
of a left-hand side binds tighter than the operator above it, or as tightly and groups to
the left (`Operator.KeepsLeft`); at the root of a right-hand side it binds tighter, or as
tightly under an operator that groups to the right (`Operator.KeepsRight`).  `Tree.Written`
are the ways to write a tree with parentheses where these conditions fail, and elsewhere at
will.

A parser goes by levels instead: an operation of a level is an operation of the tighter ones
with tails (`Tree.Forms`).  Both describe the same token lists (`Tree.Written.stands`,
`Tree.Forms.written`).
-/
namespace Fixity

open OperatorTable (Level)
open Grammar (levelsRight)

/-! ## Fixities -/

namespace Operator

/-- The operator `inner` may stand at the root of the left-hand side, without parentheses. -/
def KeepsLeft (op inner : Operator) : Prop :=
  op.precedence < inner.precedence ∨
    op.precedence = inner.precedence ∧ inner.associativity = .left

/-- The operator `inner` may stand at the root of the right-hand side, without
parentheses. -/
def KeepsRight (op inner : Operator) : Prop :=
  op.precedence < inner.precedence ∨
    op.precedence = inner.precedence ∧ op.associativity = .right

end Operator

namespace Tree
variable {α : Type}

/-- The operator at the root. -/
def root? : Tree α → Option Operator
  | value _ => none
  | node op _ _ => some op

/-- **Precedence and associativity are respected** at every node. -/
def Respects : Tree α → Prop
  | value _ => True
  | node op left right =>
    (∀ inner, left.root? = some inner → op.KeepsLeft inner) ∧
    (∀ inner, right.root? = some inner → op.KeepsRight inner) ∧ left.Respects ∧ right.Respects

/-- All operators of the tree are some of these. -/
def Over (ops : List Operator) (t : Tree α) : Prop := ∀ op, .inr op ∈ t.listing → op ∈ ops

theorem over_node {ops : List Operator} {op : Operator} {left right : Tree α} :
    (node op left right).Over ops ↔ op ∈ ops ∧ left.Over ops ∧ right.Over ops := by
  simp only [Over, listing, List.mem_append, List.mem_cons, Sum.inr.injEq]
  constructor
  · intro h
    exact ⟨h op (.inr (.inl rfl)), fun o ho => h o (.inl ho), fun o ho => h o (.inr (.inr ho))⟩
  · rintro ⟨hop, hleft, hright⟩ o (ho | rfl | ho)
    · exact hleft o ho
    · exact hop
    · exact hright o ho

end Tree

/-- The token stands for an operand or an operator. -/
def Token.Denotes {α : Type} (decode : Token → Option α) (t : Token) : α ⊕ Operator → Prop
  | .inl v => decode t = some v
  | .inr op => t = .symbol op.symbol

namespace Tree
variable {α : Type} {decode : Token → Option α} {grouping : Prop} {ts us : List Token}

/-- **The tokens list the tree** from left to right. -/
def Lists (decode : Token → Option α) (ts : List Token) (t : Tree α) : Prop :=
  List.Forall₂ (Token.Denotes decode) ts t.listing

/-- **The tokens write the tree**, where parentheses may stand if there is `grouping`: around
any part of it, once or more often, and at least around each side whose operator may not
stand there without.  The operator that is visible at the root goes along. -/
inductive Written (decode : Token → Option α) (grouping : Prop) :
    Option Operator → Tree α → List Token → Prop where
  | value {token : Token} {v : α} (h : decode token = some v) :
      Written decode grouping none (.value v) [token]
  | node {op : Operator} {left right : Tree α} {o o' : Option Operator} {ts us : List Token}
      (hl : Written decode grouping o left ts) (hr : Written decode grouping o' right us)
      (hleft : ∀ inner, o = some inner → op.KeepsLeft inner)
      (hright : ∀ inner, o' = some inner → op.KeepsRight inner) :
      Written decode grouping (some op) (.node op left right) (ts ++ .symbol op.symbol :: us)
  | enclosed {t : Tree α} {o : Option Operator} {ts : List Token} (hgrouping : grouping)
      (h : Written decode grouping o t ts) :
      Written decode grouping none t (.symbol "(" :: (ts ++ [.symbol ")"]))

/-- The operator that is visible at the root is there. -/
theorem Written.root {o : Option Operator} {t : Tree α} (h : Written decode grouping o t ts)
    {op : Operator} (ho : o = some op) : t.root? = some op := by
  cases h with
  | value | enclosed => cases ho
  | node => exact ho

/-- **Without parentheses**, what is written is the listing of a tree that respects
fixities. -/
theorem written_iff_lists {o : Option Operator} {t : Tree α} :
    Written decode False o t ts ↔ o = t.root? ∧ t.Respects ∧ Lists decode ts t := by
  constructor
  · intro h
    induction h with
    | value h => exact ⟨rfl, trivial, .cons h .nil⟩
    | node hl hr hleft hright ihl ihr =>
      obtain ⟨rfl, hrl, hll⟩ := ihl
      obtain ⟨rfl, hrr, hlr⟩ := ihr
      exact ⟨rfl, ⟨hleft, hright, hrl, hrr⟩, List.rel_append hll (.cons rfl hlr)⟩
    | enclosed hgrouping => exact hgrouping.elim
  · rintro ⟨rfl, hrespects, hlists⟩
    induction t generalizing ts with
    | value v =>
      obtain ⟨token, us, htoken, hnil, rfl⟩ := List.forall₂_cons_right_iff.mp hlists
      cases hnil
      exact .value htoken
    | node op left right ihl ihr =>
      obtain ⟨hleft, hright, hrl, hrr⟩ := hrespects
      have hus := List.forall₂_take_append _ _ _ hlists
      have hvs := List.forall₂_drop_append _ _ _ hlists
      obtain ⟨_, vs, rfl, hvs, hsplit⟩ := List.forall₂_cons_right_iff.mp hvs
      rw [← List.take_append_drop left.listing.length ts, hsplit]
      exact .node (ihl hrl hus) (ihr hrr hvs) hleft hright

/-! ## Operations by levels -/

/-- What is read of a tree at some levels. -/
inductive Part (α : Type) where
  /-- Operands with the operators of some levels, loosest first. -/
  | operation (levels : List Level) (t : Tree α)
  /-- What follows the tree `left` at a level and makes `t` of it. -/
  | tails (level : Level) (tighter : List Level) (left t : Tree α)

/-- **The tokens form a part of a tree**, by levels.  Operations of the levels `whole` may
stand in parentheses if there is `grouping`. -/
inductive Forms (decode : Token → Option α) (grouping : Prop) (whole : List Level) :
    Part α → List Token → Prop where
  | value {token : Token} {v : α} (h : decode token = some v) :
      Forms decode grouping whole (.operation [] (.value v)) [token]
  | group {t : Tree α} {ts : List Token} (hgrouping : grouping)
      (h : Forms decode grouping whole (.operation whole t) ts) :
      Forms decode grouping whole (.operation [] t) (.symbol "(" :: (ts ++ [.symbol ")"]))
  | level {level : Level} {tighter : List Level} {left t : Tree α} {ts us : List Token}
      (h : Forms decode grouping whole (.operation tighter left) ts)
      (hs : Forms decode grouping whole (.tails level tighter left t) us) :
      Forms decode grouping whole (.operation (level :: tighter) t) (ts ++ us)
  | noTail {level : Level} {tighter : List Level} {t : Tree α} :
      Forms decode grouping whole (.tails level tighter t t) []
  | more {level : Level} {tighter : List Level} {left right t : Tree α} {op : Operator}
      {ts us : List Token} (hop : op ∈ level.group .left)
      (h : Forms decode grouping whole (.operation tighter right) ts)
      (hs : Forms decode grouping whole (.tails level tighter (.node op left right) t) us) :
      Forms decode grouping whole (.tails level tighter left t) (.symbol op.symbol :: (ts ++ us))
  | last {level : Level} {tighter : List Level} {left right : Tree α} {op : Operator}
      {a : Associativity} {ts : List Token} (ha : a ≠ .left) (hop : op ∈ level.group a)
      (h : Forms decode grouping whole (.operation (levelsRight level tighter a) right) ts) :
      Forms decode grouping whole (.tails level tighter left (.node op left right))
        (.symbol op.symbol :: ts)

end Tree

/-! ## Levels in order -/

namespace OperatorTable

/-- **Levels in order**: each holds operators of its own precedence, split by associativity,
and the precedences ascend. -/
structure Level.Ordered (levels : List Level) : Prop where
  group : ∀ level ∈ levels, ∀ a, ∀ op ∈ level.group a,
    op.precedence = level.precedence ∧ op.associativity = a
  ascending : levels.Pairwise fun level level' => level.precedence < level'.precedence

/-- **The levels of a table are in order.** -/
theorem levels_ordered (table : OperatorTable) : Level.Ordered table.levels where
  group level hlevel a op hop := by
    rw [table.sorts_levels.eq_levelAt level hlevel, group_levelAt] at hop
    exact (mem_select.mp hop).2
  ascending := List.pairwise_map.mp table.sorts_levels.ascending

namespace Level.Ordered
variable {whole tighter : List Level} {level : Level} {op inner : Operator} {a : Associativity}

/-- Where an operator lies, seen from a level: it binds looser, or belongs to the level, or
to a tighter one. -/
theorem trichotomy (h : Ordered whole) (hs : level :: tighter <:+ whole)
    (hop : op ∈ whole.flatMap operators) :
    op.precedence < level.precedence ∨ op ∈ level.group op.associativity ∨
      op ∈ tighter.flatMap operators := by
  obtain ⟨looser, rfl⟩ := hs
  rw [List.flatMap_append, List.flatMap_cons, List.mem_append, List.mem_append] at hop
  rcases hop with hop | hop | hop
  · obtain ⟨level', hlevel', hop⟩ := List.mem_flatMap.mp hop
    obtain ⟨a, ha⟩ := mem_operators.mp hop
    rw [(h.group level' (List.mem_append_left _ hlevel') a op ha).1]
    exact .inl ((List.pairwise_append.mp h.ascending).2.2 _ hlevel' _ List.mem_cons_self)
  · obtain ⟨a, ha⟩ := mem_operators.mp hop
    rw [(h.group level (by simp) a op ha).2]
    exact .inr (.inl ha)
  · exact .inr (.inr hop)

/-- The operators of the tighter levels bind tighter. -/
theorem lt_precedence (h : Ordered (level :: tighter)) (hop : op ∈ tighter.flatMap operators) :
    level.precedence < op.precedence := by
  obtain ⟨level', hlevel', hop⟩ := List.mem_flatMap.mp hop
  obtain ⟨a, ha⟩ := mem_operators.mp hop
  rw [(h.group level' (List.mem_cons_of_mem _ hlevel') a op ha).1]
  exact (List.pairwise_cons.mp h.ascending).1 level' hlevel'

theorem of_suffix {levels : List Level} (h : Ordered whole) (hs : levels <:+ whole) :
    Ordered levels where
  group level hlevel := h.group level (hs.subset hlevel)
  ascending := h.ascending.sublist hs.sublist

section Sides
variable (h : Ordered whole) (hs : level :: tighter <:+ whole)
  (hinner : inner ∈ whole.flatMap operators)

include h hs hinner

theorem lt_precedence_iff :
    level.precedence < inner.precedence ↔ inner ∈ tighter.flatMap operators := by
  have hlevels := h.of_suffix hs
  refine ⟨fun hlt => ?_, hlevels.lt_precedence⟩
  rcases h.trichotomy hs hinner with hlow | hsame | htight
  · exact absurd hlt (Int32.lt_asymm hlow)
  · rw [(hlevels.group level List.mem_cons_self _ inner hsame).1] at hlt
    exact absurd hlt Int32.lt_irrefl
  · exact htight

theorem precedence_eq_iff :
    level.precedence = inner.precedence ↔ inner ∈ level.group inner.associativity := by
  have hlevels := h.of_suffix hs
  refine ⟨fun heq => ?_, fun hsame => (hlevels.group level List.mem_cons_self _ inner hsame).1.symm⟩
  rcases h.trichotomy hs hinner with hlow | hsame | htight
  · rw [heq] at hlow
    exact absurd hlow Int32.lt_irrefl
  · exact hsame
  · have hlt := hlevels.lt_precedence htight
    rw [heq] at hlt
    exact absurd hlt Int32.lt_irrefl

/-- **Which operators stand at the left** of an operator of a level: those of the tighter
levels, and those of its own that group to the left. -/
theorem keepsLeft_iff (hop : op ∈ level.group a) :
    op.KeepsLeft inner ↔ inner ∈ tighter.flatMap operators ∨ inner ∈ level.group .left := by
  have hlevels := h.of_suffix hs
  have hprec := (hlevels.group level List.mem_cons_self a op hop).1
  unfold Operator.KeepsLeft
  rw [hprec, h.lt_precedence_iff hs hinner, h.precedence_eq_iff hs hinner]
  refine or_congr_right ⟨?_, fun hleft => ?_⟩
  · rintro ⟨hsame, hleft⟩
    rwa [hleft] at hsame
  · have hassoc := (hlevels.group level List.mem_cons_self _ inner hleft).2
    exact ⟨by rwa [hassoc], hassoc⟩

/-- **Which operators stand at the right** of an operator of a level: those that its
right-hand side is read with. -/
theorem keepsRight_iff (hop : op ∈ level.group a) :
    op.KeepsRight inner ↔ inner ∈ (levelsRight level tighter a).flatMap operators := by
  have hlevels := h.of_suffix hs
  obtain ⟨hprec, hassoc⟩ := hlevels.group level List.mem_cons_self a op hop
  have hown : inner ∈ level.operators ↔ inner ∈ level.group inner.associativity := by
    refine ⟨fun hmem => ?_, mem_operators_of_mem_group⟩
    obtain ⟨b, hb⟩ := mem_operators.mp hmem
    rwa [(hlevels.group level List.mem_cons_self b inner hb).2]
  unfold Operator.KeepsRight
  rw [hprec, hassoc, h.lt_precedence_iff hs hinner, h.precedence_eq_iff hs hinner, ← hown]
  cases a with
  | left => simp [levelsRight]
  | right => simp only [levelsRight, List.flatMap_cons, List.mem_append, and_true, or_comm]
  | nonAssoc => simp [levelsRight]

end Sides

end Level.Ordered

end OperatorTable

/-! ## From levels to trees and back -/

namespace Tree
variable {α : Type} {decode : Token → Option α} {grouping : Prop} {whole : List Level}
  {ts us : List Token} {t : Tree α} {o : Option Operator}

/-- The operator at the root of a tree is one of it. -/
theorem Over.root {ops : List Operator} (h : t.Over ops) {op : Operator}
    (hroot : t.root? = some op) : op ∈ ops := by
  cases t with
  | value => cases hroot
  | node =>
    cases hroot
    exact (over_node.mp h).1

/-- A tree whose visible operator is one of the levels. -/
def Within (levels : List Level) (o : Option Operator) : Prop :=
  ∀ op, o = some op → op ∈ levels.flatMap Level.operators

/-- A tree behind which a level goes on: its visible operator is one of the tighter levels, or
groups to the left. -/
def Opens (level : Level) (tighter : List Level) (o : Option Operator) : Prop :=
  ∀ op, o = some op → op ∈ tighter.flatMap Level.operators ∨ op ∈ level.group .left

theorem Opens.within {level : Level} {tighter : List Level} (h : Opens level tighter o) :
    Within (level :: tighter) o := by
  intro op ho
  rw [List.flatMap_cons, List.mem_append]
  rcases h op ho with htight | hleft
  · exact .inr htight
  · exact .inl (Level.mem_operators_of_mem_group hleft)

theorem levelsRight_suffix (level : Level) (tighter : List Level) (a : Associativity) :
    levelsRight level tighter a <:+ level :: tighter := by
  cases a with
  | left | nonAssoc => exact List.suffix_cons _ _
  | right => exact List.suffix_refl _

theorem mem_whole {level : Level} {tighter : List Level} {a : Associativity} {op : Operator}
    (hs : level :: tighter <:+ whole) (hop : op ∈ level.group a) :
    op ∈ whole.flatMap Level.operators :=
  List.mem_flatMap.mpr ⟨level, hs.subset List.mem_cons_self, Level.mem_operators_of_mem_group hop⟩

/-- An operator of a level writes a node with what it is read between. -/
theorem Written.node_of_levels (hord : Level.Ordered whole) {level : Level} {tighter : List Level}
    (hs : level :: tighter <:+ whole) {op : Operator} {a : Associativity} (hop : op ∈ level.group a)
    {left right : Tree α} {o' : Option Operator}
    (hleft : Written decode grouping o left ts)
    (hoverl : left.Over (whole.flatMap Level.operators)) (hopens : Opens level tighter o)
    (hright : Written decode grouping o' right us)
    (hoverr : right.Over (whole.flatMap Level.operators))
    (hwithin : Within (levelsRight level tighter a) o') :
    Written decode grouping (some op) (.node op left right) (ts ++ .symbol op.symbol :: us) ∧
      (Tree.node op left right).Over (whole.flatMap Level.operators) := by
  refine ⟨.node hleft hright (fun inner ho => ?_) (fun inner ho => ?_),
    over_node.mpr ⟨mem_whole hs hop, hoverl, hoverr⟩⟩
  · exact (hord.keepsLeft_iff hs (hoverl.root (hleft.root ho)) hop).mpr (hopens inner ho)
  · exact (hord.keepsRight_iff hs (hoverr.root (hright.root ho)) hop).mpr (hwithin inner ho)

/-- **What forms a part of a tree by levels writes it.** -/
theorem Forms.written (hord : Level.Ordered whole) {part : Part α}
    (h : Forms decode grouping whole part ts) :
    match part with
    | .operation levels t => levels <:+ whole →
      ∃ o, Written decode grouping o t ts ∧ t.Over (whole.flatMap Level.operators) ∧
        Within levels o
    | .tails l tighter left t => l :: tighter <:+ whole → ∀ o us,
      Written decode grouping o left us → left.Over (whole.flatMap Level.operators) →
      Opens l tighter o →
      ∃ o', Written decode grouping o' t (us ++ ts) ∧ t.Over (whole.flatMap Level.operators) ∧
        Within (l :: tighter) o' := by
  induction h with
  | value h => exact fun _ => ⟨none, .value h, nofun, nofun⟩
  | group hgrouping h ih =>
    intro _
    obtain ⟨o, hwritten, hover, -⟩ := ih (List.suffix_refl _)
    exact ⟨none, .enclosed hgrouping hwritten, hover, nofun⟩
  | @level level tighter left t ts us h hs ih ihs =>
    intro hsuffix
    obtain ⟨o, hwritten, hover, hwithin⟩ := ih ((List.suffix_cons _ _).trans hsuffix)
    exact ihs hsuffix o ts hwritten hover fun op ho => .inl (hwithin op ho)
  | noTail =>
    intro hsuffix o us hwritten hover hopens
    exact ⟨o, by rwa [List.append_nil], hover, hopens.within⟩
  | @more l tighter left right t op ts us hop h hs ih ihs =>
    intro hsuffix o vs hwritten hover hopens
    obtain ⟨o', hwritten', hover', hwithin'⟩ := ih ((List.suffix_cons _ _).trans hsuffix)
    obtain ⟨hnode, hovern⟩ :=
      hwritten.node_of_levels hord hsuffix hop hover hopens hwritten' hover' hwithin'
    have hopens' : Opens l tighter (some op) := by
      rintro _ ⟨⟩
      exact .inr hop
    have hall := ihs hsuffix (some op) _ hnode hovern hopens'
    rwa [List.append_assoc, List.cons_append] at hall
  | @last l tighter left right op a ts ha hop h ih =>
    intro hsuffix o us hwritten hover hopens
    obtain ⟨o', hwritten', hover', hwithin'⟩ := ih ((levelsRight_suffix _ _ _).trans hsuffix)
    obtain ⟨hnode, hovern⟩ :=
      hwritten.node_of_levels hord hsuffix hop hover hopens hwritten' hover' hwithin'
    refine ⟨some op, hnode, hovern, ?_⟩
    rintro _ ⟨⟩
    exact List.mem_append_left _ (Level.mem_operators_of_mem_group hop)

/-- What no operator is visible in can stand at any level. -/
theorem Forms.lift (h : Forms decode grouping whole (.operation [] t) ts) (levels : List Level) :
    Forms decode grouping whole (.operation levels t) ts := by
  induction levels with
  | nil => exact h
  | cons l tighter ih =>
    rw [← List.append_nil ts]
    exact .level ih .noTail

/-- **Where a tree can stand** that is written with these tokens: at all levels that its visible
operator belongs to, and in front of the tails of a level that it leaves open. -/
structure Stands (decode : Token → Option α) (grouping : Prop) (whole : List Level)
    (o : Option Operator) (t : Tree α) (ts : List Token) : Prop where
  forms : ∀ levels, levels <:+ whole → Within levels o →
    Forms decode grouping whole (.operation levels t) ts
  tails : ∀ level tighter, level :: tighter <:+ whole → Opens level tighter o → ∀ t' us,
    Forms decode grouping whole (.tails level tighter t t') us →
    Forms decode grouping whole (.operation (level :: tighter) t') (ts ++ us)

/-- What no operator is visible in can stand everywhere. -/
theorem Forms.stands (h : Forms decode grouping whole (.operation [] t) ts) :
    Stands decode grouping whole none t ts where
  forms levels _ _ := h.lift levels
  tails _ tighter _ _ _ _ hs := .level (h.lift tighter) hs

/-- A node can stand where its operator does, as its sides stand beside it. -/
theorem Stands.node {op : Operator} {left right : Tree α} {o' : Option Operator}
    (hl : Stands decode grouping whole o left ts) (hr : Stands decode grouping whole o' right us)
    (hopens : ∀ {level tighter a}, level :: tighter <:+ whole → op ∈ level.group a →
      Opens level tighter o)
    (hwithin : ∀ {level tighter a}, level :: tighter <:+ whole → op ∈ level.group a →
      Within (levelsRight level tighter a) o') :
    Stands decode grouping whole (some op) (.node op left right)
      (ts ++ .symbol op.symbol :: us) := by
  have hright : ∀ {level tighter a}, level :: tighter <:+ whole → op ∈ level.group a →
      Forms decode grouping whole (.operation (levelsRight level tighter a) right) us :=
    fun hs hop => hr.forms _ ((levelsRight_suffix _ _ _).trans hs) (hwithin hs hop)
  have hforms : ∀ levels, levels <:+ whole → op ∈ levels.flatMap Level.operators →
      Forms decode grouping whole (.operation levels (.node op left right))
        (ts ++ .symbol op.symbol :: us) := by
    intro levels
    induction levels with
    | nil => exact fun _ hop => nomatch hop
    | cons level tighter ih =>
      intro hs hop
      rcases List.mem_append.mp hop with hown | htight
      · obtain ⟨a, ha⟩ := Level.mem_operators.mp hown
        refine hl.tails level tighter hs (hopens hs ha) _ _ ?_
        by_cases hassoc : a = .left
        · subst hassoc
          rw [← List.append_nil us]
          exact .more ha (hright hs ha) .noTail
        · exact .last hassoc ha (hright hs ha)
      · rw [← List.append_nil (ts ++ _)]
        exact .level (ih ((List.suffix_cons _ _).trans hs) htight) .noTail
  refine ⟨fun levels hs hwithin => hforms levels hs (hwithin op rfl), ?_⟩
  intro level tighter hs hopen t' vs htails
  rcases hopen op rfl with htight | hown
  · exact .level (hforms tighter ((List.suffix_cons _ _).trans hs) htight) htails
  · -- The level goes on behind the node: its operator is one more tail of the left-hand side.
    have hmore := hl.tails level tighter hs (hopens hs hown) _ _
      (.more hown (hright hs hown) htails)
    rwa [List.append_assoc, List.cons_append]

/-- **What writes a tree forms it by levels.** -/
theorem Written.stands (hord : Level.Ordered whole) (h : Written decode grouping o t ts)
    (hover : t.Over (whole.flatMap Level.operators)) : Stands decode grouping whole o t ts := by
  induction h with
  | value h => exact (Forms.value h).stands
  | enclosed hgrouping h ih =>
    have hwhole := (ih hover).forms whole (List.suffix_refl _) fun op ho => hover.root (h.root ho)
    exact (Forms.group hgrouping hwhole).stands
  | node hl hr hleft hright ihl ihr =>
    obtain ⟨-, hoverl, hoverr⟩ := over_node.mp hover
    refine (ihl hoverl).node (ihr hoverr) (fun hs hop inner ho => ?_) fun hs hop inner ho => ?_
    · exact (hord.keepsLeft_iff hs (hoverl.root (hl.root ho)) hop).mp (hleft inner ho)
    · exact (hord.keepsRight_iff hs (hoverr.root (hr.root ho)) hop).mp (hright inner ho)

end Tree

end Fixity
