import Fixity.Proofs.Completeness
import Fixity.Proofs.FirstToken
import Fixity.Proofs.Fixities

/-! # The longest operation is read

A parser that loops reads as much as it can, one level after the other, and no level looks
at what the others could still use.  It finds the longest phrase all the same, because of how
the shorter ones end: behind an operation that is part of a longer one stands an operator of
its levels (`Token.IsOperatorOf`), and no looser level can take it, as symbols are distinct.
This is what `IsLongest` carries along with the length, and with it the longest operand with
the longest tails is the longest operation (`IsLongest.append`).

`Parser.Settles` says that a parser reads the longest phrase where there is one, and declines
where there is none.
-/
namespace Fixity

open OperatorTable (Level)

/-! ## Longest phrases -/

/-- The tokens `ts` go on behind `us`, with a token of this kind. -/
def GoesOnBehind (kind : Token → Prop) (us ts : List Token) : Prop :=
  ∃ t vs, ts = us ++ t :: vs ∧ kind t

namespace GoesOnBehind
variable {kind kind' : Token → Prop} {us ts : List Token}

theorem mono (h : GoesOnBehind kind us ts) (hk : ∀ t, kind t → kind' t) :
    GoesOnBehind kind' us ts := by
  obtain ⟨t, vs, hts, ht⟩ := h
  exact ⟨t, vs, hts, hk t ht⟩

theorem append_left (h : GoesOnBehind kind us ts) (ws : List Token) :
    GoesOnBehind kind (ws ++ us) (ws ++ ts) := by
  obtain ⟨t, vs, rfl, ht⟩ := h
  exact ⟨t, vs, by rw [List.append_assoc], ht⟩

theorem append_right (h : GoesOnBehind kind us ts) (ws : List Token) :
    GoesOnBehind kind us (ts ++ ws) := by
  obtain ⟨t, vs, rfl, ht⟩ := h
  exact ⟨t, vs ++ ws, by rw [List.append_assoc, List.cons_append], ht⟩

theorem length_lt (h : GoesOnBehind kind us ts) : us.length < ts.length := by
  obtain ⟨t, vs, rfl, -⟩ := h
  rw [List.length_append, List.length_cons]
  omega

/-- The token that they go on with is what is left behind `us`. -/
theorem head {r r' : List Token} (h : GoesOnBehind kind us ts) (heq : us ++ r' = ts ++ r) :
    ∃ t, r'.head? = some t ∧ kind t := by
  obtain ⟨t, vs, rfl, ht⟩ := h
  rw [List.append_assoc, List.append_cancel_left_eq] at heq
  exact ⟨t, by rw [heq]; rfl, ht⟩

end GoesOnBehind

section
variable {α β : Type} {phrase : List Token → α → Prop} {goesOn : α → Token → Prop}
  {ts us r : List Token} {v : α}

/-- **The longest phrase** of `ts ++ r` is `ts`: what goes on behind any other phrase there is
a token that its value can go on with. -/
structure IsLongest (phrase : List Token → α → Prop) (goesOn : α → Token → Prop)
    (ts : List Token) (v : α) (r : List Token) : Prop where
  isPhrase : phrase ts v
  others : ∀ us w r', phrase us w → us ++ r' = ts ++ r →
    us = ts ∧ w = v ∨ GoesOnBehind (goesOn w) us ts

namespace IsLongest

theorem congr {phrase' : List Token → α → Prop} (h : IsLongest phrase goesOn ts v r)
    (hp : ∀ ts v, phrase' ts v ↔ phrase ts v) : IsLongest phrase' goesOn ts v r where
  isPhrase := (hp ts v).mpr h.isPhrase
  others us w r' hw := h.others us w r' ((hp us w).mp hw)

theorem length_le (h : IsLongest phrase goesOn ts v r) {w : α} {r' : List Token}
    (hw : phrase us w) (heq : us ++ r' = ts ++ r) : us.length ≤ ts.length := by
  rcases h.others us w r' hw heq with ⟨rfl, -⟩ | hlonger
  · exact Nat.le_refl _
  · exact Nat.le_of_lt hlonger.length_lt

/-- There is one longest phrase. -/
theorem unique (h : IsLongest phrase goesOn ts v r) {w : α} {r' : List Token}
    (h' : IsLongest phrase goesOn us w r') (heq : us ++ r' = ts ++ r) :
    us = ts ∧ w = v ∧ r' = r := by
  rcases h.others us w r' h'.isPhrase heq with ⟨rfl, rfl⟩ | hlonger
  · exact ⟨rfl, rfl, List.append_cancel_left heq⟩
  · have hle := h'.length_le h.isPhrase heq.symm
    exact absurd hlonger.length_lt (Nat.not_lt.mpr hle)

/-- **One phrase behind another.**  A phrase that could have been longer goes on with a token
that nothing starts with that may follow it. -/
theorem append {next : α → List Token → β → Prop} {goesOn' : β → Token → Prop} {w : β}
    (h : IsLongest phrase goesOn ts v (us ++ r)) (h' : IsLongest (next v) goesOn' us w r)
    (hgo : ∀ a vs b t r, next a vs b → (vs ++ r).head? = some t → goesOn a t →
      vs = [] ∧ goesOn' b t) :
    IsLongest (fun xs b => ∃ a vs ws, xs = vs ++ ws ∧ phrase vs a ∧ next a ws b) goesOn'
      (ts ++ us) w r where
  isPhrase := ⟨v, ts, us, rfl, h.isPhrase, h'.isPhrase⟩
  others := by
    rintro _ b r' ⟨a, vs, ws, rfl, hvs, hws⟩ heq
    rw [List.append_assoc, List.append_assoc] at heq
    rcases h.others vs a _ hvs heq with ⟨rfl, rfl⟩ | hlonger
    · rcases h'.others ws b r' hws (List.append_cancel_left heq) with ⟨rfl, rfl⟩ | hlonger
      · exact .inl ⟨rfl, rfl⟩
      · exact .inr (hlonger.append_left vs)
    · -- The longer phrase goes on with the next token, so nothing may follow the shorter one.
      obtain ⟨t, hhead, ht⟩ := hlonger.head heq
      obtain ⟨rfl, -⟩ := hgo a ws b t r' hws hhead ht
      rw [List.append_nil]
      refine .inr ((hlonger.append_right us).mono fun t ht => ?_)
      exact (hgo a [] b t [t] hws rfl ht).2

end IsLongest

end

/-! ## Parsers that settle -/

namespace Parser
variable {α : Type} {p : Parser α} {phrase : List Token → α → Prop} {goesOn : α → Token → Prop}
  {ts r rest : List Token} {v : α} {n : Nat}

/-- **The parser settles** where `rest` is left: it reads the longest phrase, or there is none
and it declines. -/
inductive Settles (p : Parser α) (phrase : List Token → α → Prop) (goesOn : α → Token → Prop)
    (rest : List Token) : Prop where
  | reads {ts r : List Token} {v : α} (hrest : rest = ts ++ r)
      (hlongest : IsLongest phrase goesOn ts v r) (h : p.Accepts ts r (· = v))
  | declines (hnone : ∀ ts v r, phrase ts v → rest ≠ ts ++ r) (h : p.Declines rest)

/-- The parser settles wherever fewer than `n` tokens are left. -/
def SettlesBelow (p : Parser α) (phrase : List Token → α → Prop) (goesOn : α → Token → Prop)
    (n : Nat) : Prop :=
  ∀ rest, rest.length < n → p.Settles phrase goesOn rest

/-- What the outcome of a parser that settles is, in the input `all`. -/
inductive Settled (phrase : List Token → α → Prop) (goesOn : α → Token → Prop)
    (all rest : List Token) : Outcome α → Prop where
  | reads {ts r : List Token} {v : α} {c' : Cursor} (hrest : rest = ts ++ r)
      (hlongest : IsLongest phrase goesOn ts v r) (hat : c'.At all r) :
      Settled phrase goesOn all rest (.ok v c')
  | declines {f : Failure} {c' : Cursor} (hnone : ∀ ts v r, phrase ts v → rest ≠ ts ++ r)
      (hf : f.isFatal = false) (htok : c'.tokens = all) :
      Settled phrase goesOn all rest (.fail f c')

namespace Settles

/-- Where there is a phrase, the longest one is read. -/
theorem exists_reads (h : p.Settles phrase goesOn rest) (hts : phrase ts v)
    (hrest : rest = ts ++ r) :
    ∃ us w r', rest = us ++ r' ∧ IsLongest phrase goesOn us w r' ∧ p.Accepts us r' (· = w) := by
  cases h with
  | reads hrest hlongest h => exact ⟨_, _, _, hrest, hlongest, h⟩
  | declines hnone h => exact absurd hrest (hnone ts v r hts)

/-- A phrase that is all that is left is read. -/
theorem accepts_all (h : p.Settles phrase goesOn ts) (hts : phrase ts v) :
    p.Accepts ts [] (· = v) := by
  obtain ⟨us, w, r, hrest, hlongest, hreads⟩ := h.exists_reads hts (List.append_nil ts).symm
  rcases hlongest.others ts v [] hts ((List.append_nil ts).trans hrest) with ⟨rfl, rfl⟩ | hlonger
  · rwa [List.append_right_eq_self.mp hrest.symm] at hreads
  · have hlt := hlonger.length_lt
    rw [hrest, List.length_append] at hlt
    omega

/-- **A parser settles if its single runs do**: they agree, as there is one longest phrase. -/
theorem iff_settled : p.Settles phrase goesOn rest ↔
    ∀ all c, c.At all rest → Settled phrase goesOn all rest (p c) := by
  constructor
  · rintro (⟨rfl, hlongest, h⟩ | ⟨hnone, h⟩) all c hc
    · obtain ⟨v, c', hp, hat, rfl⟩ := h all c hc
      rw [hp]
      exact .reads rfl hlongest hat
    · obtain ⟨f, c', hp, hf, htok⟩ := h all c hc
      rw [hp]
      exact .declines hnone hf htok
  · intro h
    have hstart := h rest _ (Cursor.at_start rest)
    generalize p (.start rest) = o at hstart
    cases hstart with
    | reads hrest hlongest _ =>
      subst hrest
      refine .reads rfl hlongest fun all c hc => ?_
      have hrun := h all c hc
      generalize p c = o' at hrun ⊢
      cases hrun with
      | reads heq hlongest' hat =>
        obtain ⟨rfl, rfl, rfl⟩ := hlongest.unique hlongest' heq.symm
        exact ⟨_, _, rfl, hat, rfl⟩
      | declines hnone _ _ => exact absurd rfl (hnone _ _ _ hlongest.isPhrase)
    | declines hnone _ _ =>
      refine .declines hnone fun all c hc => ?_
      have hrun := h all c hc
      generalize p c = o' at hrun ⊢
      cases hrun with
      | reads heq hlongest _ => exact absurd heq (hnone _ _ _ hlongest.isPhrase)
      | declines _ hf htok => exact ⟨_, _, rfl, hf, htok⟩

/-- A group is tried where the operand fails at its first token. -/
theorem orGroup {operand : Parser α} {P : Option Token → Prop} (hoperand : operand.Balks P)
    (hP : P rest.head?) (h : p.Settles phrase goesOn rest) :
    (Parser.orGroup operand p).Settles phrase goesOn rest := by
  refine iff_settled.mpr fun all c hc => ?_
  obtain ⟨f, c₁, hpc, hbalked⟩ := hoperand c (hc.peek?.symm ▸ hP)
  have hat : (c₁.restore c.position).At all rest := hc.restore (hbalked.tokens.trans hc.tokens)
  have hrun := iff_settled.mp h all _ hat
  rw [Parser.orGroup, hpc, Outcome.recover_recoverable hbalked.isFatal, if_pos hbalked.position]
  generalize p (c₁.restore c.position) = o at hrun ⊢
  cases hrun with
  | reads hrest hlongest hat => exact .reads hrest hlongest hat
  | declines hnone hf htok =>
    rw [Outcome.recover_recoverable hf]
    exact .declines hnone (Failure.isFatal_merge hbalked.isFatal hf) htok

end Settles

namespace SettlesBelow

theorem of_le {m : Nat} (h : p.SettlesBelow phrase goesOn n) (hm : m ≤ n) :
    p.SettlesBelow phrase goesOn m :=
  fun rest hlt => h rest (Nat.lt_of_lt_of_le hlt hm)

/-- **Recursive parsers.**  The body may enter the parser only where fewer tokens are left. -/
theorem fix {body : Parser α → Parser α}
    (h : ∀ m p, m < n → p.SettlesBelow phrase goesOn m →
      (body p).SettlesBelow phrase goesOn (m + 1)) (spare : Nat) :
    (Parser.fix spare body).SettlesBelow phrase goesOn n := by
  intro rest hlt
  refine Settles.iff_settled.mpr fun all c hc => ?_
  refine fix_of_body (fun c o => ∀ all rest, c.At all rest →
    Settled phrase goesOn all rest o) ?_ spare (hc.remaining.symm ▸ hlt) all rest hc
  intro m p hm hp c hlt all rest hc
  refine Settles.iff_settled.mp (h m p hm (fun rest hlt => ?_) rest (hc.remaining ▸ hlt)) all c hc
  exact Settles.iff_settled.mpr fun all c hc => hp c (hc.remaining.symm ▸ hlt) all rest hc

end SettlesBelow

end Parser

/-! ## Operations and tails -/

/-- The token is an operator of the levels. -/
def Token.IsOperatorOf (levels : List Level) (t : Token) : Prop :=
  ∃ op ∈ levels.flatMap Level.operators, t = .symbol op.symbol

namespace Token.IsOperatorOf
variable {level : Level} {tighter : List Level}

theorem cons {t : Token} (h : t.IsOperatorOf tighter) : t.IsOperatorOf (level :: tighter) := by
  obtain ⟨op, hop, ht⟩ := h
  exact ⟨op, List.mem_append_right _ hop, ht⟩

theorem own {op : Operator} {a : Associativity} (h : op ∈ level.group a) :
    (Token.symbol op.symbol).IsOperatorOf (level :: tighter) :=
  ⟨op, List.mem_append_left _ (Level.mem_operators_of_mem_group h), rfl⟩

end Token.IsOperatorOf

namespace Tree
open Grammar (levelsRight tailOf)
variable {α : Type} (decode : Token → Option α) (grouping : Prop) (whole : List Level)
  (level : Level) (tighter : List Level)

/-- The tokens form an operation of the levels. -/
def FormsOperation (levels : List Level) (ts : List Token) (t : Tree α) : Prop :=
  Forms decode grouping whole (.operation levels t) ts

/-- The tokens form the tails of a level behind `left`. -/
def FormsTails (left : Tree α) (ts : List Token) (t : Tree α) : Prop :=
  Forms decode grouping whole (.tails level tighter left t) ts

/-- The tokens form one tail: an operator with its right-hand side. -/
def FormsTail (ts : List Token) (tail : Tail α) : Prop :=
  ∃ a, ∃ op ∈ level.group a, ∃ right us, ts = .symbol op.symbol :: us ∧ tail = tailOf a op right ∧
    FormsOperation decode grouping whole (levelsRight level tighter a) us right

/-- The tokens form what is left of the tails behind the first. -/
def FormsFurther (left : Tree α) : Tail α → List Token → Tree α → Prop
  | .more op right, ts, t =>
    FormsTails decode grouping whole level tighter (.node op left right) ts t
  | .last op right, ts, t => ts = [] ∧ t = .node op left right

/-- What a tail of a level can go on with. -/
def TailGoesOn : Tail α → Token → Prop
  | .more _ _ => Token.IsOperatorOf tighter
  | .last _ _ => Token.IsOperatorOf (level :: tighter)

variable {decode grouping whole level tighter} {left t : Tree α} {ts us r : List Token}

theorem tailGoesOn_tailOf {a : Associativity} {op : Operator} {right : Tree α} {token : Token}
    (h : token.IsOperatorOf (levelsRight level tighter a)) :
    TailGoesOn level tighter (tailOf a op right) token := by
  cases a with
  | left | right => exact h
  | nonAssoc => exact h.cons

theorem formsOperation_cons : FormsOperation decode grouping whole (level :: tighter) ts t ↔
    ∃ left us vs, ts = us ++ vs ∧ FormsOperation decode grouping whole tighter us left ∧
      FormsTails decode grouping whole level tighter left vs t := by
  constructor
  · intro h
    cases h with
    | level h hs => exact ⟨_, _, _, rfl, h, hs⟩
  · rintro ⟨left, us, vs, rfl, h, hs⟩
    exact .level h hs

theorem formsTails_iff : FormsTails decode grouping whole level tighter left ts t ↔
    ts = [] ∧ t = left ∨ ∃ tail us vs, ts = us ++ vs ∧
      FormsTail decode grouping whole level tighter us tail ∧
      FormsFurther decode grouping whole level tighter left tail vs t := by
  constructor
  · intro h
    cases h with
    | noTail => exact .inl ⟨rfl, rfl⟩
    | @more _ _ _ right _ op ts us hop h hs =>
      exact .inr ⟨_, .symbol op.symbol :: ts, us, rfl, ⟨.left, op, hop, right, ts, rfl, rfl, h⟩, hs⟩
    | @last _ _ _ right op a ts ha hop h =>
      have htail : tailOf a op right = .last op right := by
        cases a with
        | left => exact absurd rfl ha
        | right | nonAssoc => rfl
      exact .inr ⟨_, _, [], (List.append_nil _).symm, ⟨a, op, hop, right, ts, rfl, htail.symm, h⟩,
        rfl, rfl⟩
  · rintro (⟨rfl, rfl⟩ | ⟨_, _, vs, rfl, ⟨a, op, hop, right, us, rfl, rfl, h⟩, hs⟩)
    · exact .noTail
    · cases a with
      | left => exact .more hop h hs
      | right | nonAssoc =>
        obtain ⟨rfl, rfl⟩ := hs
        rw [List.append_nil]
        exact .last (by decide) hop h

/-- No tail starts with an operator of a tighter level. -/
theorem FormsTails.eq_nil (hapart : Level.Apart level tighter)
    (h : FormsTails decode grouping whole level tighter left ts t) {token : Token}
    (hhead : (ts ++ r).head? = some token) (htoken : token.IsOperatorOf tighter) :
    ts = [] := by
  obtain ⟨other, hother, rfl⟩ := htoken
  rcases formsTails_iff.mp h with ⟨rfl, -⟩ | ⟨_, _, vs, rfl, ⟨a, op, hop, _, us, rfl, -⟩, -⟩
  · rfl
  · have hsymbol : op.symbol = other.symbol := Token.symbol.inj (Option.some.inj hhead)
    exact absurd hsymbol (hapart op (Level.mem_operators_of_mem_group hop) other hother)

/-! ### The longest ones -/

/-- **The longest tail** is the operator with the longest right-hand side: its symbol tells the
operator, and so which levels its right-hand side has. -/
theorem isLongest_tail (hd : (level.operators.map (·.symbol)).Nodup) {a : Associativity}
    {op : Operator} {right : Tree α} (hop : op ∈ level.group a)
    (h : IsLongest (FormsOperation decode grouping whole (levelsRight level tighter a))
      (fun _ => Token.IsOperatorOf (levelsRight level tighter a)) ts right r) :
    IsLongest (FormsTail decode grouping whole level tighter) (TailGoesOn level tighter)
      (.symbol op.symbol :: ts) (tailOf a op right) r where
  isPhrase := ⟨a, op, hop, right, ts, rfl, rfl, h.isPhrase⟩
  others := by
    rintro _ _ r' ⟨b, op', hop', right', us, rfl, rfl, hus⟩ heq
    obtain ⟨hsymbol, heq'⟩ := List.cons.inj heq
    obtain ⟨rfl, rfl⟩ := Level.eq_of_symbol_eq hd hop' hop (Token.symbol.inj hsymbol)
    rcases h.others us right' r' hus heq' with ⟨rfl, rfl⟩ | hlonger
    · exact .inl ⟨rfl, rfl⟩
    · exact .inr ((hlonger.mono fun _ => tailGoesOn_tailOf).append_left [_])

/-- Where there is no first tail, there are none. -/
theorem isLongest_noTail
    (hnone : ∀ us tail r', FormsTail decode grouping whole level tighter us tail → r ≠ us ++ r') :
    IsLongest (FormsTails decode grouping whole level tighter left)
      (fun _ => Token.IsOperatorOf (level :: tighter)) [] left r where
  isPhrase := .noTail
  others := by
    intro us t r' hus heq
    rcases formsTails_iff.mp hus with ⟨rfl, rfl⟩ | ⟨tail, vs, ws, rfl, hvs, -⟩
    · exact .inl ⟨rfl, rfl⟩
    · rw [List.append_assoc] at heq
      exact absurd heq.symm (hnone vs tail _ hvs)

section Apart
variable (hapart : Level.Apart level tighter)

include hapart

/-- **The longest tails** are the longest first one with the longest further ones. -/
theorem isLongest_tails {tail : Tail α}
    (h : IsLongest (FormsTail decode grouping whole level tighter) (TailGoesOn level tighter)
      ts tail (us ++ r))
    (h' : IsLongest (FormsFurther decode grouping whole level tighter left tail)
      (fun _ => Token.IsOperatorOf (level :: tighter)) us t r) :
    IsLongest (FormsTails decode grouping whole level tighter left)
      (fun _ => Token.IsOperatorOf (level :: tighter)) (ts ++ us) t r where
  isPhrase := formsTails_iff.mpr (.inr ⟨tail, ts, us, rfl, h.isPhrase, h'.isPhrase⟩)
  others := by
    intro vs t' r' hvs heq
    rcases formsTails_iff.mp hvs with ⟨rfl, -⟩ | hvs
    · obtain ⟨a, op, hop, right, ws, rfl, -⟩ := h.isPhrase
      exact .inr ⟨.symbol op.symbol, ws ++ us, rfl, .own hop⟩
    · refine (h.append h' ?_).others vs t' r' hvs heq
      intro tail vs _ token r hvs hhead htoken
      cases tail with
      | more => exact ⟨hvs.eq_nil hapart hhead htoken, htoken.cons⟩
      | last => exact ⟨hvs.1, htoken⟩

/-- **The longest operation of a level** is the longest operation of the tighter ones with the
longest tails. -/
theorem isLongest_operation
    (h : IsLongest (FormsOperation decode grouping whole tighter)
      (fun _ => Token.IsOperatorOf tighter) ts left (us ++ r))
    (h' : IsLongest (FormsTails decode grouping whole level tighter left)
      (fun _ => Token.IsOperatorOf (level :: tighter)) us t r) :
    IsLongest (FormsOperation decode grouping whole (level :: tighter))
      (fun _ => Token.IsOperatorOf (level :: tighter)) (ts ++ us) t r := by
  refine (h.append h' ?_).congr fun _ _ => formsOperation_cons
  intro _ vs _ token r hvs hhead htoken
  exact ⟨hvs.eq_nil hapart hhead htoken, htoken.cons⟩

end Apart

end Tree

namespace Grammar
open Fixity.Tree
variable {Γ : List Type} {spare n : Nat} {env : Env Γ} {α : Type} {decode : Token → Option α}
  {grouping : Prop} {whole : List Level} {level : Level} {tighter : List Level}
  {rest : List Token}

/-! ## Levels -/

/-- The parser settles on operations of the levels wherever fewer than `n` tokens are left. -/
def SettlesOn (p : Parser (Tree α)) (decode : Token → Option α) (grouping : Prop)
    (whole levels : List Level) (n : Nat) : Prop :=
  p.SettlesBelow (FormsOperation decode grouping whole levels)
    (fun _ => Token.IsOperatorOf levels) n

/-- **One tail** of a level. -/
theorem settles_tailRules {this next : Parser (Tree α)}
    (hd : (level.operators.map (·.symbol)).Nodup)
    (hthis : SettlesOn this decode grouping whole (level :: tighter) n)
    (hnext : SettlesOn next decode grouping whole tighter n) :
    ((Rule.oneOf (Tree.tailRules Token.symbol? level)).eval spare
      (.cons this (.cons next env))).SettlesBelow (FormsTail decode grouping whole level tighter)
      (TailGoesOn level tighter) (n + 1) := by
  intro rest hlt
  by_cases hhead : ∃ op ∈ level.operators, rest.head? = some (.symbol op.symbol)
  · obtain ⟨op, hop, hhead⟩ := hhead
    obtain ⟨rest, rfl⟩ := List.head?_eq_some_iff.mp hhead
    obtain ⟨a, hop⟩ := Level.mem_operators.mp hop
    have hlt' : rest.length < n := Nat.lt_of_succ_lt_succ hlt
    have hright : ((rightOf a).eval spare (.cons this (.cons next env))).Settles
        (FormsOperation decode grouping whole (levelsRight level tighter a))
        (fun _ => Token.IsOperatorOf (levelsRight level tighter a)) rest := by
      cases a with
      | left | nonAssoc => exact hnext rest hlt'
      | right => exact hthis rest hlt'
    cases hright with
    | @reads ts r right hrest hlongest h =>
      subst hrest
      refine .reads (List.cons_append ..).symm (isLongest_tail hd hop hlongest)
        ((accepts_tailRules hd hop h).mono ?_)
      rintro _ ⟨op', _, rfl, ⟨hop', hsymbol⟩, rfl⟩
      rw [(Level.eq_of_symbol_eq hd hop' hop hsymbol).2]
    | declines hnone h =>
      refine .declines ?_ (declines_tailRules_right hd hop h)
      rintro _ _ r ⟨b, op', hop', right, us, rfl, rfl, hus⟩ heq
      obtain ⟨hsymbol, heq'⟩ := List.cons.inj heq
      obtain ⟨rfl, rfl⟩ := Level.eq_of_symbol_eq hd hop hop' (Token.symbol.inj hsymbol)
      exact hnone us right r hus heq'
  · refine .declines ?_ (declines_tailRules fun op hop heq => hhead ⟨op, hop, heq⟩)
    rintro _ _ r ⟨a, op, hop, right, us, rfl, rfl, -⟩ rfl
    exact hhead ⟨op, Level.mem_operators_of_mem_group hop, rfl⟩

/-- **The tails of a level** behind an operand that has been read.  There is always a phrase to
read, as there may be no tail. -/
theorem reads_joinTails {tail : Parser (Tail α)}
    (hapart : Level.Apart level tighter)
    (h : tail.SettlesBelow (FormsTail decode grouping whole level tighter)
      (TailGoesOn level tighter) n)
    (hn : rest.length < n) {turns : Nat} (hturns : rest.length < turns) (left : Tree α) :
    ∃ us t r, rest = us ++ r ∧
      IsLongest (FormsTails decode grouping whole level tighter left)
        (fun _ => Token.IsOperatorOf (level :: tighter)) us t r ∧
      (Parser.joinTails tail turns left).Accepts us r (· = t) := by
  induction turns generalizing rest left with
  | zero => exact absurd hturns (Nat.not_lt_zero _)
  | succ turns ih =>
    cases h rest hn with
    | declines hnone h =>
      exact ⟨[], left, rest, rfl, isLongest_noTail hnone, .joinTails_nil h rfl⟩
    | @reads ts r v hrest hlongest h =>
      subst hrest
      cases v with
      | more op right =>
        -- A tail is not empty, so one turn is enough for it.
        have hpos : 0 < ts.length := by
          obtain ⟨_, _, _, _, _, rfl, -⟩ := hlongest.isPhrase
          exact Nat.succ_pos _
        have hlen : r.length < n ∧ r.length < turns := by
          rw [List.length_append] at hn hturns
          omega
        obtain ⟨us, t, r, rfl, hlongest', hs⟩ := ih hlen.1 hlen.2 (.node op left right)
        refine ⟨ts ++ us, t, r, (List.append_assoc ..).symm,
          isLongest_tails hapart hlongest hlongest', ?_⟩
        have hmore : tail.Accepts ts (us ++ r) fun v => ∃ op' right', v = .more op' right' ∧
            (op' = op ∧ right' = right) := h.mono fun v hv => ⟨op, right, hv, rfl, rfl⟩
        refine .joinTails_more ts hmore ?_
        rintro _ _ ⟨rfl, rfl⟩
        exact hs
      | last op right =>
        refine ⟨ts, .node op left right, r, rfl, ?_,
          .joinTails_last (h.mono fun v hv => ⟨op, right, hv, rfl⟩)⟩
        rw [← List.append_nil ts]
        refine isLongest_tails hapart hlongest ⟨⟨rfl, rfl⟩, ?_⟩
        rintro _ _ _ ⟨rfl, rfl⟩ -
        exact .inl ⟨rfl, rfl⟩

/-- **A level** over the tighter ones. -/
theorem settles_levelRule {tight : Rule Γ (Tree α)}
    (hd : (((level :: tighter).flatMap Level.operators).map (·.symbol)).Nodup)
    (h : SettlesOn (tight.eval spare env) decode grouping whole tighter n) :
    SettlesOn ((Tree.levelRule Token.symbol? level tight).eval spare env) decode grouping whole
      (level :: tighter) n := by
  obtain ⟨hlevel, -, hapart⟩ := Level.nodup_symbols_cons hd
  refine Parser.SettlesBelow.fix (fun m this hm hthis => ?_) spare
  intro rest hlt
  have htail : ((Rule.oneOf (Tree.tailRules Token.symbol? level)).eval spare
      (.cons this (.cons (tight.eval spare env) env))).SettlesBelow
      (FormsTail decode grouping whole level tighter) (TailGoesOn level tighter) (m + 1) :=
    settles_tailRules hlevel hthis (h.of_le hm.le)
  cases h rest (by omega) with
  | declines hnone h =>
    refine .declines (fun ts t r hts heq => ?_) (.chain spare h)
    obtain ⟨left, us, vs, rfl, hus, -⟩ := formsOperation_cons.mp hts
    rw [List.append_assoc] at heq
    exact hnone us left _ hus heq
  | @reads ts r left hrest hlongest h =>
    subst hrest
    have hr : r.length < m + 1 := by
      rw [List.length_append] at hlt
      omega
    obtain ⟨us, t, r, rfl, hlongest', -⟩ :=
      reads_joinTails hapart htail hr (Nat.lt_succ_self _) left
    refine .reads (List.append_assoc ..).symm (isLongest_operation hapart hlongest hlongest')
      (.chain spare h ?_)
    -- However many turns the loop is granted, it reads the same tails: the longest ones.
    rintro left turns rfl hturns
    obtain ⟨_, _, _, heq, hlongest'', hs⟩ := reads_joinTails hapart htail hr hturns left
    obtain ⟨rfl, rfl, rfl⟩ := hlongest'.unique hlongest'' heq.symm
    exact hs

theorem settles_levelRules {levels : List Level} {operand : Rule Γ (Tree α)}
    (hd : ((levels.flatMap Level.operators).map (·.symbol)).Nodup)
    (h : SettlesOn (operand.eval spare env) decode grouping whole [] n) :
    SettlesOn ((Tree.levelRules Token.symbol? levels operand).eval spare env) decode grouping whole
      levels n := by
  induction levels with
  | nil => exact h
  | cons level tighter ih => exact settles_levelRule hd (ih (Level.nodup_symbols_cons hd).2.1)

/-! ## Operands -/

/-- A token that is an operand is all that can be read there. -/
theorem isLongest_value {t : Token} {v : α} {r : List Token} (h : decode t = some v)
    (hopen : grouping → decode (.symbol "(") = none) :
    IsLongest (FormsOperation decode grouping whole []) (fun _ => Token.IsOperatorOf []) [t]
      (.value v) r where
  isPhrase := .value h
  others := by
    intro us w r' hus heq
    cases hus with
    | value h' =>
      obtain ⟨rfl, -⟩ := List.cons.inj heq
      obtain rfl := Option.some.inj (h'.symm.trans h)
      exact .inl ⟨rfl, rfl⟩
    | group hgrouping =>
      obtain ⟨rfl, -⟩ := List.cons.inj heq
      rw [hopen hgrouping] at h
      cases h

/-- Where no token is an operand, only a group can stand. -/
theorem exists_group {us r : List Token} {t : Tree α}
    (h : FormsOperation decode grouping whole [] us t)
    (hnone : (us ++ r).head?.bind decode = none) :
    grouping ∧ ∃ vs, us ++ r = .symbol "(" :: (vs ++ .symbol ")" :: r) ∧
      us = .symbol "(" :: (vs ++ [.symbol ")"]) ∧
      FormsOperation decode grouping whole whole vs t := by
  cases h with
  | value h =>
    rw [List.singleton_append, List.head?_cons, Option.bind_some, h] at hnone
    cases hnone
  | @group _ vs hgrouping h => exact ⟨hgrouping, vs, by simp, rfl, h⟩

/-- **The longest group** holds the longest operation: a shorter one goes on with an operator,
which is no parenthesis. -/
theorem isLongest_group {t : Tree α} {ts r : List Token} (hgrouping : grouping)
    (hopen : decode (.symbol "(") = none) (hclose : ¬ (Token.symbol ")").IsOperatorOf whole)
    (h : IsLongest (FormsOperation decode grouping whole whole) (fun _ => Token.IsOperatorOf whole)
      ts t (.symbol ")" :: r)) :
    IsLongest (FormsOperation decode grouping whole []) (fun _ => Token.IsOperatorOf [])
      (.symbol "(" :: (ts ++ [.symbol ")"])) t r where
  isPhrase := .group hgrouping h.isPhrase
  others := by
    intro us w r' hus heq
    obtain ⟨-, vs, hsplit, rfl, hvs⟩ := exists_group hus (by rw [heq]; exact hopen)
    have heq' : vs ++ .symbol ")" :: r' = ts ++ .symbol ")" :: r := by
      simpa using hsplit.symm.trans heq
    rcases h.others vs w _ hvs heq' with ⟨rfl, rfl⟩ | hlonger
    · exact .inl ⟨rfl, rfl⟩
    · obtain ⟨_, ⟨⟩, ht⟩ := hlonger.head heq'
      exact absurd ht hclose

/-- **Operands without groups.** -/
theorem settles_operand {self : Parser (Tree α)} {expected : String} :
    SettlesOn ((Tree.operandRule none (.token decode expected)).eval spare (.cons self env))
      decode False whole [] n := by
  intro rest hlt
  show (Parser.map Tree.value (Parser.token decode expected)).Settles _ _ _
  cases hhead : rest.head?.bind decode with
  | none =>
    refine .declines ?_ (.map (.token decode expected (Option.bind_eq_none_iff.mp hhead)))
    rintro ts t r hts rfl
    exact (exists_group hts hhead).1
  | some v =>
    obtain ⟨t, ht, hv⟩ := Option.bind_eq_some_iff.mp hhead
    obtain ⟨r, rfl⟩ := List.head?_eq_some_iff.mp ht
    exact .reads rfl (isLongest_value hv False.elim) (.map (.token decode expected hv rfl))

section Delimiters
variable {self : Parser (Tree α)} {r : List Token} (text : String)

theorem accepts_delimiter :
    (((Rule.symbol text : Rule Γ String).map fun _ => ()).weaken.eval spare
      (.cons self env)).Accepts [.symbol text] r fun _ => True := by
  rw [Rule.eval_weaken]
  exact .map (Rule.accepts_symbol text)

variable {text}

theorem declines_delimiter (h : rest.head? ≠ some (.symbol text)) :
    (((Rule.symbol text : Rule Γ String).map fun _ => ()).weaken.eval spare
      (.cons self env)).Declines rest := by
  rw [Rule.eval_weaken]
  exact .map (Rule.declines_symbol h)

end Delimiters

/-- A group, where no token is an operand. -/
theorem settles_group {self : Parser (Tree α)} (hopen : decode (.symbol "(") = none)
    (hclose : ¬ (Token.symbol ")").IsOperatorOf whole)
    (h : SettlesOn self decode True whole whole n) (hhead : rest.head?.bind decode = none)
    (hlt : rest.length < n + 1) :
    ((Rule.between Delimiters.parentheses.opening.weaken Delimiters.parentheses.closing.weaken
      (.ref .here)).eval spare (.cons self env)).Settles (FormsOperation decode True whole [])
      (fun _ => Token.IsOperatorOf []) rest := by
  -- Whatever can be read is a group.
  have hgroup : ∀ us t r, FormsOperation decode True whole [] us t → rest = us ++ r →
      ∃ vs, rest = .symbol "(" :: (vs ++ .symbol ")" :: r) ∧
        FormsOperation decode True whole whole vs t := by
    rintro us t r hus rfl
    obtain ⟨-, vs, hsplit, -, hvs⟩ := exists_group hus hhead
    exact ⟨vs, hsplit, hvs⟩
  by_cases hparen : ∃ rest', rest = .symbol "(" :: rest'
  · obtain ⟨rest', rfl⟩ := hparen
    cases h rest' (Nat.lt_of_succ_lt_succ hlt) with
    | @reads ts r t hrest hlongest h =>
      subst hrest
      by_cases hend : ∃ r', r = .symbol ")" :: r'
      · obtain ⟨r, rfl⟩ := hend
        refine .reads (by simp) (isLongest_group trivial hopen hclose hlongest) ?_
        exact .between ts (accepts_delimiter "(") h (accepts_delimiter ")")
      · refine .declines (fun us w r' hus heq => ?_) ?_
        · obtain ⟨vs, hsplit, hvs⟩ := hgroup us w r' hus heq
          have heq' := (List.cons.inj hsplit).2
          rcases hlongest.others vs w _ hvs heq'.symm with ⟨rfl, rfl⟩ | hlonger
          · exact hend ⟨r', List.append_cancel_left heq'⟩
          · obtain ⟨_, ⟨⟩, ht⟩ := hlonger.head heq'.symm
            exact absurd ht hclose
        · refine .map (.seq_append (.keepRight (accepts_delimiter "(") h) (declines_delimiter ?_))
          exact fun hr => hend (List.head?_eq_some_iff.mp hr)
    | declines hnone h =>
      refine .declines (fun us w r hus heq => ?_)
        (.map (.seq_first (.map (.seq_second (accepts_delimiter "(") h))))
      obtain ⟨vs, hsplit, hvs⟩ := hgroup us w r hus heq
      exact hnone vs w _ hvs (List.cons.inj hsplit).2
  · refine .declines (fun us w r hus heq => ?_)
      (.map (.seq_first (.map (.seq_first (declines_delimiter fun hr => ?_)))))
    · obtain ⟨vs, hsplit, -⟩ := hgroup us w r hus heq
      exact hparen ⟨_, hsplit⟩
    · exact hparen (List.head?_eq_some_iff.mp hr)

/-- **Operands with groups.** -/
theorem settles_operand_orGroup {self : Parser (Tree α)} {expected : String}
    (hopen : decode (.symbol "(") = none) (hclose : ¬ (Token.symbol ")").IsOperatorOf whole)
    (h : SettlesOn self decode True whole whole n) :
    SettlesOn ((Tree.operandRule (some .parentheses) (.token decode expected)).eval spare
      (.cons self env)) decode True whole [] (n + 1) := by
  intro rest hlt
  show (Parser.orGroup (Parser.map Tree.value (Parser.token decode expected)) _).Settles _ _ _
  cases hhead : rest.head?.bind decode with
  | none =>
    have hbalks : (Parser.map Tree.value (Parser.token decode expected)).Balks
        fun t? => t?.bind decode = none := .map (.token fun _ h => h)
    exact .orGroup hbalks hhead (settles_group hopen hclose h hhead hlt)
  | some v =>
    obtain ⟨t, ht, hv⟩ := Option.bind_eq_some_iff.mp hhead
    obtain ⟨r, rfl⟩ := List.head?_eq_some_iff.mp ht
    exact .reads rfl (isLongest_value hv fun _ => hopen)
      (.orGroup (.map (.token decode expected hv rfl)))

/-! ## Expressions -/

section Expressions
variable {table : OperatorTable} (hd : (table.operators.map (·.symbol)).Nodup)
  (expected : String)

include hd

theorem nodup_levels : ((table.levels.flatMap Level.operators).map (·.symbol)).Nodup :=
  (table.levels_perm.map _).nodup_iff.mpr hd

/-- **Without groups**, the longest operation is read. -/
theorem settles_rule :
    SettlesOn ((Tree.rule Token.symbol? table none (.token decode expected)).eval spare env)
      decode False table.levels table.levels n :=
  .fix (fun _ _ _ _ => settles_levelRules (nodup_levels hd) settles_operand) spare

/-- **With parentheses**, the longest operation is read. -/
theorem settles_rule_parentheses (hopen : decode (.symbol "(") = none)
    (hclose : ¬ (Token.symbol ")").IsOperatorOf table.levels) :
    SettlesOn ((Tree.rule Token.symbol? table (some .parentheses) (.token decode expected)).eval
      spare env) decode True table.levels table.levels n :=
  .fix (fun _ _ _ hself =>
    settles_levelRules (nodup_levels hd) (settles_operand_orGroup hopen hclose hself)) spare

end Expressions

end Grammar

end Fixity
