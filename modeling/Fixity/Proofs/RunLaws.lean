import Fixity.Rule
import Fixity.Proofs.Handling

/-! # Laws of runs

A law of runs says what a run may do to the cursor when it gives a value, and what it may
leave behind when it fails.  Runs consist of a few kinds of steps: they read a token, make
a failure where they stand, put it into the record, move back to where they started, merge
the failures of two alternatives, name, mark or promote a failure.  A law that allows these
steps (`RunLaw`) is kept by every parser that a rule describes (`RunLaw.keeps_eval`).
-/
namespace Fixity

/-- **A law of runs**, which allows every step of which runs consist. -/
structure RunLaw where
  /-- From where runs are considered. -/
  start : Cursor → Prop
  /-- Where a run may leave the cursor behind a value. -/
  moves : Cursor → Cursor → Prop
  /-- What a failing run may leave behind. -/
  fails : Cursor → Failure → Cursor → Prop
  refl {c : Cursor} : start c → moves c c
  trans {c c' c'' : Cursor} : moves c c' → moves c' c'' → moves c c''
  rebase {c c' c'' : Cursor} {f : Failure} : moves c c' → fails c' f c'' → fails c f c''
  start_of_moves {c c' : Cursor} : moves c c' → start c'
  /-- A run reads a token. -/
  advance {c : Cursor} : start c → c.hasNext = true → moves c c.advance
  /-- A run moves back behind a value. -/
  giveUp {c c' : Cursor} : start c → moves c c' → moves c (c'.restore c.position)
  /-- A run moves back behind a failure. -/
  rescue {c c' : Cursor} {f : Failure} : start c → fails c f c' → moves c (c'.restore c.position)
  /-- A run fails where it stands. -/
  unmet {c : Cursor} (expected : String) : start c → fails c (c.unmet expected) c
  /-- Behind a failure, the run may as well have failed at once. -/
  again {c c' : Cursor} {f : Failure} : start c → fails c f c' →
    fails (c'.restore c.position) f (c'.restore c.position)
  remember {c c' : Cursor} {f : Failure} : fails c f c' → fails c f (c'.remember f)
  merge {c c' c'' : Cursor} {f g : Failure} : start c → fails c f c' → fails c g c'' →
    fails c (f.merge g) (c''.restore c.position)
  named {c c' : Cursor} {f : Failure} (name : String) : fails c f c' →
    fails c { f with expected := [name] } c'
  asTrailing {c c' : Cursor} {f : Failure} : fails c f c' → fails c f.asTrailing c'
  toFatal {c c' : Cursor} {f : Failure} : fails c f c' → fails c f.toFatal c'
  rememberFatal {c c' : Cursor} {f g : Failure} : fails c f c' → fails c f (c'.rememberFatal g)

namespace RunLaw
variable {law : RunLaw} {α β : Type} {c c' : Cursor} {o : Outcome α} {p q : Parser α}

/-- **A run that keeps a law.**  One that does not end keeps every law. -/
inductive Kept (law : RunLaw) {α : Type} (c : Cursor) : Outcome α → Prop where
  | ok {v : α} {c' : Cursor} (h : law.moves c c') : Kept law c (.ok v c')
  | fail {f : Failure} {c' : Cursor} (h : law.fails c f c') : Kept law c (.fail f c')
  | stalled : Kept law c .stalled

namespace Kept

/-- A run may count as started earlier. -/
theorem rebase (h : law.Kept c' o) (hc : law.moves c c') : law.Kept c o := by
  cases h with
  | ok h => exact .ok (law.trans hc h)
  | fail h => exact .fail (law.rebase hc h)
  | stalled => exact .stalled

theorem handle {next : α → Cursor → Outcome β} {rescue : Failure → Cursor → Outcome β}
    (h : law.Kept c o) (hnext : ∀ v c', law.moves c c' → law.Kept c (next v c'))
    (hrescue : ∀ f c', law.fails c f c' → law.Kept c (rescue f c')) :
    law.Kept c (o.handle next rescue) := by
  cases h with
  | ok h => exact hnext _ _ h
  | fail h =>
    rw [Outcome.handle]
    split
    · exact .fail h
    · exact hrescue _ _ h
  | stalled => exact .stalled

theorem bind {next : α → Cursor → Outcome β} (h : law.Kept c o)
    (hnext : ∀ v c', law.start c' → law.Kept c' (next v c')) : law.Kept c (o.bind next) := by
  rw [Outcome.bind_eq_handle]
  refine h.handle (fun v c' hc => ?_) fun _ _ => .fail
  exact (hnext v c' (law.start_of_moves hc)).rebase hc

theorem recover {next : Failure → Cursor → Outcome α} (h : law.Kept c o)
    (hnext : ∀ f c', law.fails c f c' → law.Kept c (next f c')) :
    law.Kept c (o.recover next) := by
  rw [Outcome.recover_eq_handle]
  exact h.handle (fun _ _ => .ok) hnext

theorem map {f : α → β} (h : law.Kept c o) : law.Kept c (o.map f) :=
  h.bind fun _ _ hc => .ok (law.refl hc)

end Kept

/-- **A parser that keeps a law.** -/
def Keeps (law : RunLaw) {α : Type} (p : Parser α) : Prop := ∀ c, law.start c → law.Kept c (p c)

namespace Keeps

/-! ## One token, and the end -/

theorem reject (expected : String) : law.Keeps (Parser.reject expected : Parser α) :=
  fun _ hc => .fail (law.remember (law.unmet expected hc))

theorem token (decode : Token → Option α) (expected : String) :
    law.Keeps (Parser.token decode expected) := by
  intro c hc
  unfold Parser.token
  split
  · rename_i v hv
    obtain ⟨t, ht, -⟩ := Option.bind_eq_some_iff.mp hv
    exact .ok (law.advance hc (c.hasNext_iff_peek?.mpr ⟨t, ht⟩))
  · exact reject expected c hc

theorem atEnd : law.Keeps Parser.atEnd := by
  intro c hc
  unfold Parser.atEnd
  split
  · exact reject _ c hc
  · exact .ok (law.refl hc)

theorem dangling : law.Keeps (Parser.dangling : Parser α) :=
  fun _ hc => .fail (law.toFatal (law.unmet _ hc))

theorem filter {accepts : α → Bool} {expected : String} (hp : law.Keeps p) :
    law.Keeps (Parser.filter accepts expected p) := by
  intro c hc
  unfold Parser.filter
  rw [Outcome.bind_eq_handle]
  refine (hp c hc).handle (fun v c' h => ?_) fun _ _ => .fail
  split
  · exact .ok h
  · have hback := law.giveUp hc h
    exact (reject expected _ (law.start_of_moves hback)).rebase hback

/-! ## Sequences and values -/

theorem map {f : α → β} (hp : law.Keeps p) : law.Keeps (Parser.map f p) :=
  fun c hc => (hp c hc).map

theorem seq {q : Parser β} (hp : law.Keeps p) (hq : law.Keeps q) : law.Keeps (Parser.seq p q) :=
  fun c hc => (hp c hc).bind fun _ c' hc' => (hq c' hc').map

theorem sequence {ps : List (Parser α)} (hps : ∀ p ∈ ps, law.Keeps p) :
    law.Keeps (Parser.sequence ps) := by
  induction ps with
  | nil => exact fun c hc => .ok (law.refl hc)
  | cons p ps ih =>
    obtain ⟨hp, hrest⟩ := List.forall_mem_cons.mp hps
    exact fun c hc => (hp c hc).bind fun _ c' hc' => (ih hrest c' hc').map

theorem commit (hp : law.Keeps p) : law.Keeps (Parser.commit p) :=
  fun c hc => (hp c hc).recover fun _ _ h => .fail (law.rememberFatal (law.toFatal h))

theorem toEnd (hp : law.Keeps p) : law.Keeps (Parser.toEnd p) := by
  refine fun c hc => (hp c hc).bind fun v c' hc' => ?_
  split
  · exact .fail (law.asTrailing (law.unmet _ hc'))
  · exact .ok (law.refl hc')

/-! ## Choices -/

/-- The second of two alternatives, after a failure of the first. -/
theorem second (hq : law.Keeps q) {f : Failure} (hc : law.start c) (h : law.fails c f c') :
    law.Kept c ((q (c'.restore c.position)).recover fun g c'' =>
      .fail (f.merge g) (c''.restore c.position)) := by
  have hback := law.rescue hc h
  refine ((hq _ (law.start_of_moves hback)).rebase hback).recover fun g c'' h' => ?_
  exact .fail (law.merge hc h h')

theorem or (hp : law.Keeps p) (hq : law.Keeps q) : law.Keeps (Parser.or p q) :=
  fun c hc => (hp c hc).recover fun _ _ h => hq.second hc h

theorem orGroup (hp : law.Keeps p) (hq : law.Keeps q) : law.Keeps (Parser.orGroup p q) := by
  refine fun c hc => (hp c hc).recover fun f c' h => ?_
  split
  · exact hq.second hc h
  · exact .fail h

theorem label {name : String} (hp : law.Keeps p) : law.Keeps (Parser.label name p) := by
  refine fun c hc => (hp c hc).recover fun f c' h => ?_
  split
  · exact .fail (law.remember (law.named name h))
  · exact .fail h

theorem optional (hp : law.Keeps p) : law.Keeps (Parser.optional p) :=
  fun c hc => (hp c hc).map.recover fun _ _ h => .ok (law.rescue hc h)

/-- Parsers that are tried in order, after some have failed. -/
theorem tryEach {ps : List (Parser α)} (hps : ∀ p ∈ ps, law.Keeps p) {failure : Option Failure}
    (hc : law.start c) (hf : ∀ f, failure = some f → law.fails c f c) :
    law.Kept c (Parser.tryEach c.position ps failure c) := by
  induction ps generalizing c failure with
  | nil =>
    cases failure with
    | none => exact .fail (law.unmet _ hc)
    | some f => exact .fail (hf f rfl)
  | cons p ps ih =>
    obtain ⟨hp, hrest⟩ := List.forall_mem_cons.mp hps
    refine (hp c hc).recover fun g c' h => ?_
    have hback := law.rescue hc h
    refine (ih (c := c'.restore c.position) hrest (law.start_of_moves hback) ?_).rebase hback
    intro k hk
    cases failure with
    | none =>
      cases hk
      exact law.again hc h
    | some f =>
      cases hk
      have hagain := law.again hc (law.merge hc (hf f rfl) h)
      exact hagain

theorem firstOf {ps : List (Parser α)} (hps : ∀ p ∈ ps, law.Keeps p) :
    law.Keeps (Parser.firstOf ps) :=
  fun _ hc => tryEach hps hc nofun

/-! ## Loops and recursion -/

theorem collect (hp : law.Keeps p) (turns : Nat) : law.Keeps (Parser.collect p turns) := by
  induction turns with
  | zero => exact fun _ _ => .stalled
  | succ turns ih =>
    intro c hc
    rw [Parser.collect_succ]
    refine (hp c hc).handle (fun v c' h => ?_) fun f c' h => .ok (law.rescue hc h)
    exact (ih c' (law.start_of_moves h)).map.rebase h

theorem many (hp : law.Keeps p) (spare : Nat) : law.Keeps (Parser.many spare p) :=
  fun c hc => hp.collect _ c hc

theorem many1 (hp : law.Keeps p) (spare : Nat) : law.Keeps (Parser.many1 spare p) := by
  rw [Parser.many1_eq_seq]
  exact hp.seq (hp.many spare)

theorem sepBy {delimiter : Parser β} (hp : law.Keeps p) (hd : law.Keeps delimiter)
    (spare : Nat) : law.Keeps (Parser.sepBy spare p delimiter) := by
  intro c hc
  rw [Parser.sepBy_eq]
  refine (hp c hc).handle (fun v c' h => ?_) fun f c' h => .ok (law.rescue hc h)
  exact ((hd.seq hp).map.many spare c' (law.start_of_moves h)).map.rebase h

theorem joinTails {tail : Parser (Tail α)} (ht : law.Keeps tail) (turns : Nat) (tree : Tree α) :
    law.Keeps (Parser.joinTails tail turns tree) := by
  induction turns generalizing tree with
  | zero => exact fun _ _ => .stalled
  | succ turns ih =>
    intro c hc
    rw [Parser.joinTails_succ]
    refine (ht c hc).handle (fun t c' h => ?_) fun f c' h => .ok (law.rescue hc h)
    cases t with
    | more op right => exact (ih _ c' (law.start_of_moves h)).rebase h
    | last op right => exact .ok h

theorem chain {operand : Parser (Tree α)} {tail : Parser (Tail α)} (ho : law.Keeps operand)
    (ht : law.Keeps tail) (spare : Nat) : law.Keeps (Parser.chain spare operand tail) :=
  fun c hc => (ho c hc).bind fun tree c' hc' => ht.joinTails _ tree c' hc'

theorem iterate {body : Parser α → Parser α} (h : ∀ p, law.Keeps p → law.Keeps (body p))
    (turns : Nat) : law.Keeps (Parser.iterate body turns) := by
  induction turns with
  | zero => exact fun _ _ => .stalled
  | succ turns ih => exact h _ ih

theorem fix {body : Parser α → Parser α} (h : ∀ p, law.Keeps p → law.Keeps (body p))
    (spare : Nat) : law.Keeps (Parser.fix spare body) :=
  fun c hc => iterate h _ c hc

end Keeps

/-- **Every rule keeps the law**, if the rules in scope do. -/
theorem keeps_eval (law : RunLaw) {Γ : List Type} {α : Type} (spare : Nat) (rule : Rule Γ α)
    (env : Env Γ) (henv : ∀ β (x : Var Γ β), law.Keeps (env.get x)) :
    law.Keeps (rule.eval spare env) := by
  induction rule with
  | token decode expected => exact .token decode expected
  | atEnd => exact .atEnd
  | dangling => exact .dangling
  | seq first second ih ih' => exact (ih env henv).seq (ih' env henv)
  | map f rule ih => exact (ih env henv).map
  | or first second ih ih' => exact (ih env henv).or (ih' env henv)
  | filter accepts expected rule ih => exact (ih env henv).filter
  | label name rule ih => exact (ih env henv).label
  | firstOf rules ih =>
    refine .firstOf ?_
    simp only [List.mem_ofFn, forall_exists_index]
    rintro _ i rfl
    exact ih i env henv
  | sequence rules ih =>
    refine .sequence ?_
    simp only [List.mem_ofFn, forall_exists_index]
    rintro _ i rfl
    exact ih i env henv
  | many rule ih => exact (ih env henv).many spare
  | many1 rule ih => exact (ih env henv).many1 spare
  | sepBy item delimiter ih ih' => exact (ih env henv).sepBy (ih' env henv) spare
  | optional rule ih => exact (ih env henv).optional
  | commit rule ih => exact (ih env henv).commit
  | toEnd rule ih => exact (ih env henv).toEnd
  | orGroup operand group ih ih' => exact (ih env henv).orGroup (ih' env henv)
  | chain level operand tail ih ih' => exact (ih env henv).chain (ih' env henv) spare
  | fix body ih =>
    refine .fix (fun self hself => ih _ fun β x => ?_) spare
    cases x with
    | here => exact hself
    | there x => exact henv β x
  | share shared body ih ih' =>
    refine ih' _ fun β x => ?_
    cases x with
    | here => exact ih env henv
    | there x => exact henv β x
  | ref x => exact henv _ x

end RunLaw

end Fixity
