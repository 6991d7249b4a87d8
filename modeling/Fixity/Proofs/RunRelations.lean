import Mathlib.Data.List.Forall2
import Fixity.Proofs.Handling
import Fixity.Rule

/-! # Relations between runs

Two runs go side by side when they take the same steps: both read a token, both fail where
they stand, both move back.  What is the same about their cursors and their failures is
left open: a relation between runs (`RunRelation`) is one that the steps of which runs
consist respect.  Parsers that are built in the same way from parsers whose runs are
related have related runs (`RunRelation.Similar`), by one lemma for each way of building
parsers; a relation `V` goes along for the values.

A run that does not end is related to every run, on this side only.  So a recursive parser
can be compared with a parser that is not made by the same recursion
(`RunRelation.Similar.fix_left`), and if its own runs end the comparison says it all.
-/
namespace Fixity

/-- **A relation between two runs**, which their steps respect. -/
structure RunRelation where
  /-- How the cursors are related where both runs start, or are behind a value. -/
  near : Cursor → Cursor → Prop
  /-- How two failures are related, with the cursors that are left behind. -/
  fails : Failure → Cursor → Failure → Cursor → Prop
  length {c d : Cursor} : near c d → c.tokens.length = d.tokens.length
  position {c d : Cursor} : near c d → c.position = d.position
  isFatal {f g : Failure} {c d : Cursor} : fails f c g d → f.isFatal = g.isFatal
  failPosition {f g : Failure} {c d : Cursor} : fails f c g d → f.position = g.position
  /-- Both read a token. -/
  advance {c d : Cursor} : near c d → c.hasNext = true → near c.advance d.advance
  /-- Both fail where they stand. -/
  reject {c d : Cursor} (expected : String) : near c d →
    fails (c.unmet expected) (c.remember (c.unmet expected))
      (d.unmet expected) (d.remember (d.unmet expected))
  /-- Both move back behind a failure. -/
  giveUp {f g : Failure} {c d : Cursor} (n : Nat) : fails f c g d → near (c.restore n) (d.restore n)
  /-- Behind a failure it does not matter where the cursors stand. -/
  moved {f g : Failure} {c d : Cursor} (n m : Nat) : fails f c g d →
    fails f (c.restore n) g (d.restore m)
  /-- Both have failed in two ways. -/
  merge {f g f' g' : Failure} {c d c' d' : Cursor} : fails f c g d → fails f' c' g' d' →
    f.isFatal = false → f'.isFatal = false → fails (f.merge f') c' (g.merge g') d'
  /-- Both name what they have expected. -/
  named {f g : Failure} {c d : Cursor} (name : String) : fails f c g d → f.isFatal = false →
    fails { f with expected := [name] } (c.remember { f with expected := [name] })
      { g with expected := [name] } (d.remember { g with expected := [name] })
  toFatal {f g : Failure} {c d : Cursor} : fails f c g d →
    fails f.toFatal (c.rememberFatal f) g.toFatal (d.rememberFatal g)

namespace RunRelation
variable {R : RunRelation} {α α' β β' : Type}

/-! ## Outcomes -/

/-- **Outcomes that are related**: two values, or two failures.  The first run need not
end. -/
inductive Paired (R : RunRelation) {α α' : Type} (V : α → α' → Prop) :
    Outcome α → Outcome α' → Prop where
  | ok {v : α} {v' : α'} {c d : Cursor} (hv : V v v') (h : R.near c d) :
      Paired R V (.ok v c) (.ok v' d)
  | fail {f g : Failure} {c d : Cursor} (h : R.fails f c g d) : Paired R V (.fail f c) (.fail g d)
  | stalled (o : Outcome α') : Paired R V .stalled o

namespace Paired
variable {V : α → α' → Prop} {W : β → β' → Prop} {o : Outcome α} {o' : Outcome α'}

theorem handle {next : α → Cursor → Outcome β} {next' : α' → Cursor → Outcome β'}
    {rescue : Failure → Cursor → Outcome β} {rescue' : Failure → Cursor → Outcome β'}
    (h : R.Paired V o o')
    (hnext : ∀ v v' c d, V v v' → R.near c d → R.Paired W (next v c) (next' v' d))
    (hrescue : ∀ f g c d, R.fails f c g d → f.isFatal = false → g.isFatal = false →
      R.Paired W (rescue f c) (rescue' g d)) :
    R.Paired W (o.handle next rescue) (o'.handle next' rescue') := by
  cases h with
  | ok hv h => exact hnext _ _ _ _ hv h
  | @fail f g c d h =>
    have hfatal := R.isFatal h
    simp only [Outcome.handle]
    by_cases hf : f.isFatal = true
    · rw [if_pos hf, if_pos (hfatal.symm.trans hf)]
      exact .fail h
    · have hf' := Bool.eq_false_iff.mpr hf
      have hg' := hfatal.symm.trans hf'
      rw [if_neg hf, if_neg (Bool.eq_false_iff.mp hg')]
      exact hrescue f g c d h hf' hg'
  | stalled => exact .stalled _

theorem bind {next : α → Cursor → Outcome β} {next' : α' → Cursor → Outcome β'}
    (h : R.Paired V o o')
    (hnext : ∀ v v' c d, V v v' → R.near c d → R.Paired W (next v c) (next' v' d)) :
    R.Paired W (o.bind next) (o'.bind next') := by
  rw [Outcome.bind_eq_handle, Outcome.bind_eq_handle]
  exact h.handle hnext fun _ _ _ _ h _ _ => .fail h

theorem recover {next : Failure → Cursor → Outcome α} {next' : Failure → Cursor → Outcome α'}
    (h : R.Paired V o o')
    (hnext : ∀ f g c d, R.fails f c g d → f.isFatal = false → g.isFatal = false →
      R.Paired V (next f c) (next' g d)) :
    R.Paired V (o.recover next) (o'.recover next') := by
  rw [Outcome.recover_eq_handle, Outcome.recover_eq_handle]
  exact h.handle (fun _ _ _ _ => .ok) hnext

theorem map {f : α → β} {f' : α' → β'} (h : R.Paired V o o')
    (hf : ∀ v v', V v v' → W (f v) (f' v')) : R.Paired W (o.map f) (o'.map f') :=
  h.bind fun _ _ _ _ hv hnear => .ok (hf _ _ hv) hnear

theorem mono {V' : α → α' → Prop} (h : R.Paired V o o') (hV : ∀ v v', V v v' → V' v v') :
    R.Paired V' o o' := by
  cases h with
  | ok hv h => exact .ok (hV _ _ hv) h
  | fail h => exact .fail h
  | stalled => exact .stalled _

end Paired

/-! ## Parsers -/

/-- **Parsers whose runs are related**, from all cursors that are. -/
def Similar (R : RunRelation) {α α' : Type} (V : α → α' → Prop) (p : Parser α)
    (q : Parser α') : Prop :=
  ∀ c d, R.near c d → R.Paired V (p c) (q d)

theorem hasNext_eq {c d : Cursor} (h : R.near c d) : c.hasNext = d.hasNext := by
  rw [Cursor.hasNext, Cursor.hasNext, R.length h, R.position h]

theorem turns_eq {c d : Cursor} (h : R.near c d) (spare : Nat) : c.turns spare = d.turns spare := by
  rw [Cursor.turns, Cursor.turns, Cursor.remaining, Cursor.remaining, R.length h, R.position h]

/-! ### What both runs read -/

/-- Runs over the same tokens. -/
class SameTokens (R : RunRelation) : Prop where
  tokens {c d : Cursor} : R.near c d → c.tokens = d.tokens

/-- Runs that see the same symbols, whatever else they see. -/
class SameSymbols (R : RunRelation) : Prop where
  symbol {c d : Cursor} : R.near c d → c.peek?.bind Token.symbol? = d.peek?.bind Token.symbol?

theorem peek?_eq [R.SameTokens] {c d : Cursor} (h : R.near c d) : c.peek? = d.peek? :=
  Cursor.peek?_congr (SameTokens.tokens h) (R.position h)

instance [R.SameTokens] : R.SameSymbols where
  symbol h := by rw [peek?_eq h]

namespace Similar
variable {V : α → α' → Prop} {W : β → β' → Prop} {p : Parser α} {q : Parser α'}

theorem mono {V' : α → α' → Prop} (h : R.Similar V p q) (hV : ∀ v v', V v v' → V' v v') :
    R.Similar V' p q :=
  fun c d hnear => (h c d hnear).mono hV

theorem reject (expected : String) :
    R.Similar V (Parser.reject expected : Parser α) (Parser.reject expected : Parser α') :=
  fun _ _ h => .fail (R.reject expected h)

/-- One token, which the runs decode to related values, or both do not. -/
theorem token_of {decode : Token → Option α} {decode' : Token → Option α'}
    (h : ∀ c d, R.near c d → Option.Rel V (c.peek?.bind decode) (d.peek?.bind decode'))
    (expected : String) :
    R.Similar V (Parser.token decode expected) (Parser.token decode' expected) := by
  intro c d hnear
  have hrel := h c d hnear
  unfold Parser.token
  generalize hv : c.peek?.bind decode = v? at hrel
  generalize d.peek?.bind decode' = v?' at hrel
  cases hrel with
  | some hV =>
    obtain ⟨t, ht, -⟩ := Option.bind_eq_some_iff.mp hv
    exact .ok hV (R.advance hnear (c.hasNext_iff_peek?.mpr ⟨t, ht⟩))
  | none => exact reject expected c d hnear

/-- One token of which only some values are accepted, related ones in both runs. -/
theorem filter_token_of {decode : Token → Option α} {decode' : Token → Option α'}
    (h : ∀ c d, R.near c d → Option.Rel V (c.peek?.bind decode) (d.peek?.bind decode'))
    (text : String) {accepts : α → Bool} {accepts' : α' → Bool}
    (haccepts : ∀ v v', V v v' → accepts v = accepts' v') (expected : String) :
    R.Similar V (Parser.filter accepts expected (Parser.token decode text))
      (Parser.filter accepts' expected (Parser.token decode' text)) := by
  intro c d hnear
  have hback : ∀ c : Cursor, c.advance.restore c.position = c := by
    intro c
    unfold Cursor.advance
    split <;> rfl
  have hrel := h c d hnear
  unfold Parser.filter Parser.token
  generalize hv : c.peek?.bind decode = v? at hrel
  generalize d.peek?.bind decode' = v?' at hrel
  cases hrel with
  | some hV =>
    obtain ⟨t, ht, -⟩ := Option.bind_eq_some_iff.mp hv
    simp only [Outcome.bind_ok, haccepts _ _ hV, hback]
    split
    · exact .ok hV (R.advance hnear (c.hasNext_iff_peek?.mpr ⟨t, ht⟩))
    · exact reject expected c d hnear
  | none => exact reject text c d hnear

/-- What both runs decode alike. -/
theorem rel_of_eq {o o' : Option α} (h : o = o') : Option.Rel Eq o o' := by
  subst h
  cases o with
  | none => exact .none
  | some v => exact .some rfl

/-- One token, which both runs decode. -/
theorem token [R.SameTokens] (decode : Token → Option α) (expected : String) :
    R.Similar Eq (Parser.token decode expected) (Parser.token decode expected) :=
  token_of (fun _ _ h => rel_of_eq (by rw [peek?_eq h])) expected

/-- One token of which only some values are accepted, the same in both runs. -/
theorem filter_token [R.SameTokens] (decode : Token → Option α) (text : String)
    {accepts accepts' : α → Bool} (haccepts : ∀ v, accepts v = accepts' v) (expected : String) :
    R.Similar Eq (Parser.filter accepts expected (Parser.token decode text))
      (Parser.filter accepts' expected (Parser.token decode text)) := by
  refine filter_token_of (fun _ _ h => rel_of_eq (by rw [peek?_eq h])) text ?_ expected
  rintro v _ rfl
  exact haccepts v

theorem map {f : α → β} {f' : α' → β'} (h : R.Similar V p q)
    (hf : ∀ v v', V v v' → W (f v) (f' v')) : R.Similar W (Parser.map f p) (Parser.map f' q) :=
  fun c d hnear => (h c d hnear).map hf

theorem seq {γ γ' : Type} {X : α × γ → α' × γ' → Prop} {Y : γ → γ' → Prop} {p' : Parser γ}
    {q' : Parser γ'} (h : R.Similar V p q) (h' : R.Similar Y p' q')
    (hX : ∀ v v' w w', V v v' → Y w w' → X (v, w) (v', w')) :
    R.Similar X (Parser.seq p p') (Parser.seq q q') :=
  fun c d hnear => (h c d hnear).bind fun v v' c' d' hv hnear' =>
    (h' c' d' hnear').map fun w w' hw => hX v v' w w' hv hw

/-- The second of two alternatives, behind failures of the first. -/
theorem second {p' : Parser α} {q' : Parser α'} (h : R.Similar V p' q') {f g : Failure}
    {c d : Cursor} (n : Nat) (hfails : R.fails f c g d) (hf : f.isFatal = false) :
    R.Paired V
      ((p' (c.restore n)).recover fun f' c' => .fail (f.merge f') (c'.restore n))
      ((q' (d.restore n)).recover fun g' d' => .fail (g.merge g') (d'.restore n)) := by
  refine (h _ _ (R.giveUp n hfails)).recover fun f' g' c' d' hfails' hf' _ => .fail ?_
  exact R.moved n n (R.merge hfails hfails' hf hf')

theorem or {p' : Parser α} {q' : Parser α'} (h : R.Similar V p q) (h' : R.Similar V p' q') :
    R.Similar V (Parser.or p p') (Parser.or q q') := by
  intro c d hnear
  refine (h c d hnear).recover fun f g c' d' hfails hf _ => ?_
  rw [← R.position hnear]
  exact h'.second c.position hfails hf

theorem orGroup {p' : Parser α} {q' : Parser α'} (h : R.Similar V p q) (h' : R.Similar V p' q') :
    R.Similar V (Parser.orGroup p p') (Parser.orGroup q q') := by
  intro c d hnear
  refine (h c d hnear).recover fun f g c' d' hfails hf _ => ?_
  rw [← R.position hnear, ← R.failPosition hfails]
  by_cases hpos : f.position = c.position
  · rw [if_pos hpos, if_pos hpos]
    exact h'.second c.position hfails hf
  · rw [if_neg hpos, if_neg hpos]
    exact .fail hfails

theorem label (name : String) (h : R.Similar V p q) :
    R.Similar V (Parser.label name p) (Parser.label name q) := by
  intro c d hnear
  refine (h c d hnear).recover fun f g c' d' hfails hf _ => ?_
  have hstart : g.position = d.position ↔ f.position = c.position := by
    rw [R.position hnear, R.failPosition hfails]
  by_cases hpos : f.position = c.position
  · rw [if_pos hpos, if_pos (hstart.mpr hpos)]
    exact .fail (R.named name hfails hf)
  · rw [if_neg hpos, if_neg (fun h => hpos (hstart.mp h))]
    exact .fail hfails

theorem commit (h : R.Similar V p q) : R.Similar V (Parser.commit p) (Parser.commit q) :=
  fun c d hnear => (h c d hnear).recover fun _ _ _ _ hfails _ _ => .fail (R.toFatal hfails)

/-- Alternatives behind others that have failed. -/
theorem tryEach {ps : List (Parser α)} {qs : List (Parser α')}
    (h : List.Forall₂ (R.Similar V) ps qs) {f g : Failure} {c d : Cursor} (hnear : R.near c d)
    (hfails : R.fails f c g d) (hf : f.isFatal = false) (n : Nat) :
    R.Paired V (Parser.tryEach n ps (some f) c) (Parser.tryEach n qs (some g) d) := by
  induction h generalizing f g c d with
  | nil => exact .fail hfails
  | cons hp _ ih =>
    refine (hp c d hnear).recover fun f' g' c' d' hfails' hf' _ => ?_
    have hmerge := R.merge hfails hfails' hf hf'
    exact ih (R.giveUp n hfails') (R.moved n n hmerge) (Failure.isFatal_merge hf hf')

theorem firstOf {ps : List (Parser α)} {qs : List (Parser α')}
    (h : List.Forall₂ (R.Similar V) ps qs) (hne : ps ≠ []) :
    R.Similar V (Parser.firstOf ps) (Parser.firstOf qs) := by
  intro c d hnear
  cases h with
  | nil => exact absurd rfl hne
  | cons hp hps =>
    refine (hp c d hnear).recover fun f g c' d' hfails hf _ => ?_
    rw [← R.position hnear]
    exact tryEach hps (R.giveUp c.position hfails) (R.moved _ _ hfails) hf c.position

/-! ### Loops -/

theorem collect (h : R.Similar V p q) (turns : Nat) :
    R.Similar (List.Forall₂ V) (Parser.collect p turns) (Parser.collect q turns) := by
  induction turns with
  | zero => exact fun _ _ _ => .stalled _
  | succ turns ih =>
    intro c d hnear
    rw [Parser.collect_succ, Parser.collect_succ]
    refine (h c d hnear).handle (fun v v' c' d' hv hnear' => ?_) fun f g c' d' hfails _ _ => ?_
    · exact (ih c' d' hnear').map fun vs vs' hvs => .cons hv hvs
    · rw [← R.position hnear]
      exact .ok .nil (R.giveUp c.position hfails)

theorem many (h : R.Similar V p q) (spare : Nat) :
    R.Similar (List.Forall₂ V) (Parser.many spare p) (Parser.many spare q) := by
  intro c d hnear
  unfold Parser.many
  rw [← turns_eq hnear]
  exact h.collect _ c d hnear

theorem many1 (h : R.Similar V p q) (spare : Nat) :
    R.Similar (fun v v' => V v.1 v'.1 ∧ List.Forall₂ V v.2 v'.2) (Parser.many1 spare p)
      (Parser.many1 spare q) := by
  rw [Parser.many1_eq_seq, Parser.many1_eq_seq]
  exact fun c d hnear => (h c d hnear).bind fun _ _ c' d' hv hnear' =>
    (h.many spare c' d' hnear').map fun _ _ hvs => ⟨hv, hvs⟩

theorem sepBy {delimiter : Parser β} {delimiter' : Parser β'} (h : R.Similar V p q)
    (hd : R.Similar W delimiter delimiter') (spare : Nat) :
    R.Similar (List.Forall₂ V) (Parser.sepBy spare p delimiter)
      (Parser.sepBy spare q delimiter') := by
  have hnext : R.Similar V (Parser.map Prod.snd (Parser.seq delimiter p))
      (Parser.map Prod.snd (Parser.seq delimiter' q)) :=
    (hd.seq h (X := fun v v' => V v.2 v'.2) fun _ _ _ _ _ hv => hv).map fun _ _ hv => hv
  intro c d hnear
  rw [Parser.sepBy_eq, Parser.sepBy_eq]
  refine (h c d hnear).handle (fun v v' c' d' hv hnear' => ?_) fun f g c' d' hfails _ _ => ?_
  · exact (hnext.many spare c' d' hnear').map fun vs vs' hvs => .cons hv hvs
  · rw [← R.position hnear]
    exact .ok .nil (R.giveUp c.position hfails)

/-! ### Levels -/

/-- Tails that make related trees of related ones, and both go on or both end the level. -/
inductive Tails (T : Tree β → Tree β' → Prop) : Tail β → Tail β' → Prop where
  | more {op op' : Operator} {right : Tree β} {right' : Tree β'}
      (h : ∀ left left', T left left' → T (.node op left right) (.node op' left' right')) :
      Tails T (.more op right) (.more op' right')
  | last {op op' : Operator} {right : Tree β} {right' : Tree β'}
      (h : ∀ left left', T left left' → T (.node op left right) (.node op' left' right')) :
      Tails T (.last op right) (.last op' right')

theorem joinTails {T : Tree β → Tree β' → Prop} {tail : Parser (Tail β)} {tail' : Parser (Tail β')}
    (h : R.Similar (Tails T) tail tail') (turns : Nat) {tree : Tree β} {tree' : Tree β'}
    (htree : T tree tree') :
    R.Similar T (Parser.joinTails tail turns tree) (Parser.joinTails tail' turns tree') := by
  induction turns generalizing tree tree' with
  | zero => exact fun _ _ _ => .stalled _
  | succ turns ih =>
    intro c d hnear
    rw [Parser.joinTails_succ, Parser.joinTails_succ]
    refine (h c d hnear).handle (fun t t' c' d' ht hnear' => ?_) fun f g c' d' hfails _ _ => ?_
    · cases ht with
      | more hnode => exact ih (hnode _ _ htree) c' d' hnear'
      | last hnode => exact .ok (hnode _ _ htree) hnear'
    · rw [← R.position hnear]
      exact .ok htree (R.giveUp c.position hfails)

theorem chain {T : Tree β → Tree β' → Prop} {operand : Parser (Tree β)}
    {operand' : Parser (Tree β')} {tail : Parser (Tail β)} {tail' : Parser (Tail β')}
    (ho : R.Similar T operand operand') (ht : R.Similar (Tails T) tail tail') (spare : Nat) :
    R.Similar T (Parser.chain spare operand tail) (Parser.chain spare operand' tail') := by
  refine fun c d hnear => (ho c d hnear).bind fun tree tree' c' d' htree hnear' => ?_
  rw [← turns_eq hnear']
  exact ht.joinTails _ htree c' d' hnear'

/-! ### Recursion -/

/-- Two recursive parsers that go round side by side. -/
theorem fix {body : Parser α → Parser α} {body' : Parser α' → Parser α'}
    (h : ∀ self self', R.Similar V self self' → R.Similar V (body self) (body' self'))
    (spare : Nat) : R.Similar V (Parser.fix spare body) (Parser.fix spare body') := by
  have hturns : ∀ turns, R.Similar V (Parser.iterate body turns) (Parser.iterate body' turns) := by
    intro turns
    induction turns with
    | zero => exact fun _ _ _ => .stalled _
    | succ turns ih => exact h _ _ ih
  intro c d hnear
  unfold Parser.fix
  rw [← turns_eq hnear]
  exact hturns _ c d hnear

/-- **A recursive parser beside any other one**: it is enough that its body follows that
parser whenever the recursive runs do. -/
theorem fix_left {body : Parser α → Parser α}
    (h : ∀ self, R.Similar V self q → R.Similar V (body self) q) (spare : Nat) :
    R.Similar V (Parser.fix spare body) q := by
  have hturns : ∀ turns, R.Similar V (Parser.iterate body turns) q := by
    intro turns
    induction turns with
    | zero => exact fun _ _ _ => .stalled _
    | succ turns ih => exact h _ ih
  exact fun c d hnear => hturns _ c d hnear

/-- A recursive parser on the other side that does not enter itself before it is followed. -/
theorem fix_right {body : Parser α' → Parser α'} (h : ∀ self, R.Similar V p (body self))
    (spare : Nat) : R.Similar V p (Parser.fix spare body) := by
  intro c d hnear
  unfold Parser.fix
  rw [Cursor.turns, Nat.add_right_comm]
  exact h _ c d hnear

end Similar

end RunRelation

end Fixity
