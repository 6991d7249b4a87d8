import Fixity.Proofs.Progress

/-! # Backtracking

A rule that fails leaves the cursor wherever its last step did: one rule after another,
several in order or the first turn of a loop do not move it back.  Whoever goes on after a
failure does that, or does not look at the position.  So nothing changes if every rule
moves the cursor back itself.

`Rule.resetting` is the same rule in which each part, at every depth, is put back to where
it started when it fails.  Its runs agree with those of the rule itself (`Outcome.Agrees`):
they give the same value with the same cursor, or the same failure with the same record
(`Rule.run_agrees_resetting`).  The proof relates the parsers of both, combinator by
combinator, along the rules in scope.
-/
namespace Fixity

/-! ## Outcomes that agree -/

/-- Cursors that differ at most in their position. -/
structure Cursor.Alike (c d : Cursor) : Prop where
  tokens : c.tokens = d.tokens
  furthest : c.furthest = d.furthest
  madeFatal : c.madeFatal = d.madeFatal

namespace Cursor.Alike
variable {c d : Cursor}

theorem refl (c : Cursor) : c.Alike c := ⟨rfl, rfl, rfl⟩

/-- Moved to one position, the cursors are the same. -/
theorem restore_eq (h : c.Alike d) (position : Nat) : c.restore position = d.restore position := by
  obtain ⟨ts, n, furthest, fatal⟩ := c
  obtain ⟨us, m, furthest', fatal'⟩ := d
  obtain ⟨rfl, rfl, rfl⟩ := h
  rfl

theorem moved (h : c.Alike d) (position : Nat) : c.Alike (d.restore position) :=
  ⟨h.tokens, h.furthest, h.madeFatal⟩

theorem remember (h : c.Alike d) (f : Failure) : (c.remember f).Alike (d.remember f) := by
  refine ⟨h.tokens, ?_, h.madeFatal⟩
  unfold Cursor.remember
  rw [h.furthest]

theorem rememberFatal (h : c.Alike d) (f : Failure) :
    (c.rememberFatal f).Alike (d.rememberFatal f) :=
  ⟨h.tokens, h.furthest, congrArg (· ++ [f]) h.madeFatal⟩

end Cursor.Alike

/-- **Outcomes that agree**: the same value and the same cursor, or the same failure and the
same cursor up to its position. -/
inductive Outcome.Agrees {α : Type} : Outcome α → Outcome α → Prop where
  | ok (v : α) (c : Cursor) : Agrees (.ok v c) (.ok v c)
  | fail (f : Failure) {c d : Cursor} (h : c.Alike d) : Agrees (.fail f c) (.fail f d)
  | stalled : Agrees .stalled .stalled

namespace Outcome.Agrees
variable {α β : Type} {o o' : Outcome α}

theorem refl (o : Outcome α) : o.Agrees o := by
  cases o with
  | ok v c => exact .ok v c
  | fail f c => exact .fail f (.refl c)
  | stalled => exact .stalled

theorem handle {next next' : α → Cursor → Outcome β} {rescue rescue' : Failure → Cursor → Outcome β}
    (h : o.Agrees o') (hnext : ∀ v c, (next v c).Agrees (next' v c))
    (hrescue : ∀ f c d, c.Alike d → (rescue f c).Agrees (rescue' f d)) :
    (o.handle next rescue).Agrees (o'.handle next' rescue') := by
  cases h with
  | ok v c => exact hnext v c
  | fail f h =>
    simp only [Outcome.handle]
    split
    · exact .fail f h
    · exact hrescue f _ _ h
  | stalled => exact .stalled

theorem bind {next next' : α → Cursor → Outcome β} (h : o.Agrees o')
    (hnext : ∀ v c, (next v c).Agrees (next' v c)) : (o.bind next).Agrees (o'.bind next') := by
  rw [bind_eq_handle, bind_eq_handle]
  exact h.handle hnext fun f _ _ => .fail f

theorem recover {next next' : Failure → Cursor → Outcome α} (h : o.Agrees o')
    (hnext : ∀ f c d, c.Alike d → (next f c).Agrees (next' f d)) :
    (o.recover next).Agrees (o'.recover next') := by
  rw [recover_eq_handle, recover_eq_handle]
  exact h.handle .ok hnext

theorem map (h : o.Agrees o') (f : α → β) : (o.map f).Agrees (o'.map f) :=
  h.bind fun _ _ => .ok _ _

/-- It does not matter where a failure leaves the cursor. -/
theorem moved (h : o.Agrees o') (position : Nat) :
    o.Agrees (o'.recover fun f c => .fail f (c.restore position)) := by
  cases h with
  | ok v c => exact .ok v c
  | fail f h =>
    rw [Outcome.recover]
    split
    · exact .fail f h
    · exact .fail f (h.moved position)
  | stalled => exact .stalled

/-- Whoever goes on after a failure from a given position need not know where it left the
cursor. -/
theorem resume {next next' : Cursor → Outcome α} (hnext : ∀ c, (next c).Agrees (next' c))
    {c d : Cursor} (h : c.Alike d) (position : Nat) :
    (next (c.restore position)).Agrees (next' (d.restore position)) := by
  rw [h.restore_eq]
  exact hnext _

end Outcome.Agrees

/-! ## Parsers that agree -/

namespace Parser
variable {α β : Type}

/-- **Moves the cursor back** to where the parser started when it fails. -/
def reset (p : Parser α) : Parser α := fun c =>
  (p c).recover fun failure c' => .fail failure (c'.restore c.position)

/-- A parser that is put back leaves the cursor where it started when it fails. -/
theorem position_of_reset {p : Parser α} {c c' : Cursor} {f : Failure}
    (h : reset p c = .fail f c') (hf : f.isFatal = false) : c'.position = c.position := by
  unfold reset Outcome.recover at h
  split at h
  · split at h
    · rename_i hfatal
      cases h
      exact absurd hf (by simp [hfatal])
    · cases h
      rfl
  · cases h
  · cases h

/-- **Parsers whose outcomes agree.** -/
def Agrees (p p' : Parser α) : Prop := ∀ c, (p c).Agrees (p' c)

namespace Agrees
variable {p p' q q' : Parser α}

theorem refl (p : Parser α) : p.Agrees p := fun c => .refl (p c)

theorem reset (h : p.Agrees p') : p.Agrees (Parser.reset p') := fun c => (h c).moved c.position

theorem map (h : p.Agrees p') (f : α → β) : (Parser.map f p).Agrees (Parser.map f p') :=
  fun c => (h c).map f

theorem seq {q q' : Parser β} (hp : p.Agrees p') (hq : q.Agrees q') :
    (Parser.seq p q).Agrees (Parser.seq p' q') :=
  fun c => (hp c).bind fun _ c' => (hq c').map _

theorem filter (h : p.Agrees p') (accepts : α → Bool) (expected : String) :
    (Parser.filter accepts expected p).Agrees (Parser.filter accepts expected p') :=
  fun c => (h c).bind fun _ _ => .refl _

theorem commit (h : p.Agrees p') : (Parser.commit p).Agrees (Parser.commit p') :=
  fun c => (h c).recover fun f _ _ h => .fail _ (h.rememberFatal f)

theorem toEnd (h : p.Agrees p') : (Parser.toEnd p).Agrees (Parser.toEnd p') :=
  fun c => (h c).bind fun _ _ => .refl _

theorem label (h : p.Agrees p') (name : String) :
    (Parser.label name p).Agrees (Parser.label name p') := by
  refine fun c => (h c).recover fun f d d' h => ?_
  split
  · exact .fail _ (h.remember _)
  · exact .fail f h

theorem optional (h : p.Agrees p') : (Parser.optional p).Agrees (Parser.optional p') :=
  fun c => ((h c).map some).recover fun _ _ _ h => .resume (fun _ => .refl _) h c.position

/-- The second of two alternatives, after a failure of the first. -/
theorem second (hq : q.Agrees q') (f : Failure) {d d' : Cursor} (h : d.Alike d')
    (position : Nat) :
    ((q (d.restore position)).recover fun g e => .fail (f.merge g) (e.restore position)).Agrees
      ((q' (d'.restore position)).recover fun g e => .fail (f.merge g) (e.restore position)) := by
  refine (Outcome.Agrees.resume hq h position).recover fun g e e' h' => ?_
  exact .resume (fun _ => .refl _) h' position

theorem or (hp : p.Agrees p') (hq : q.Agrees q') : (Parser.or p q).Agrees (Parser.or p' q') :=
  fun c => (hp c).recover fun f _ _ h => hq.second f h c.position

theorem orGroup (hp : p.Agrees p') (hq : q.Agrees q') :
    (Parser.orGroup p q).Agrees (Parser.orGroup p' q') := by
  refine fun c => (hp c).recover fun f d d' h => ?_
  split
  · exact hq.second f h c.position
  · exact .fail f h

theorem tryEach {n : Nat} {ps ps' : Fin n → Parser α} (h : ∀ i, (ps i).Agrees (ps' i))
    (start : Nat) (failure : Option Failure) :
    (Parser.tryEach start (List.ofFn ps) failure).Agrees
      (Parser.tryEach start (List.ofFn ps') failure) := by
  induction n generalizing failure with
  | zero => exact .refl _
  | succ n ih =>
    rw [List.ofFn_succ, List.ofFn_succ]
    refine fun c => (h 0 c).recover fun f _ _ hcursor => ?_
    exact .resume (ih (fun i => h i.succ) _) hcursor start

theorem firstOf {n : Nat} {ps ps' : Fin n → Parser α} (h : ∀ i, (ps i).Agrees (ps' i)) :
    (Parser.firstOf (List.ofFn ps)).Agrees (Parser.firstOf (List.ofFn ps')) :=
  fun c => tryEach h c.position none c

theorem sequence {n : Nat} {ps ps' : Fin n → Parser α} (h : ∀ i, (ps i).Agrees (ps' i)) :
    (Parser.sequence (List.ofFn ps)).Agrees (Parser.sequence (List.ofFn ps')) := by
  induction n with
  | zero => exact .refl _
  | succ n ih =>
    rw [List.ofFn_succ, List.ofFn_succ]
    exact fun c => (h 0 c).bind fun v c' => (ih (fun i => h i.succ) c').map (v :: ·)

theorem collect (h : p.Agrees p') (turns : Nat) :
    (Parser.collect p turns).Agrees (Parser.collect p' turns) := by
  induction turns with
  | zero => exact .refl _
  | succ turns ih =>
    intro c
    rw [Parser.collect_succ, Parser.collect_succ]
    refine (h c).handle (fun v c' => (ih c').map (v :: ·)) fun _ d d' h => ?_
    exact .resume (fun _ => .refl _) h c.position

theorem many (h : p.Agrees p') (spare : Nat) :
    (Parser.many spare p).Agrees (Parser.many spare p') :=
  fun c => h.collect _ c

theorem many1 (h : p.Agrees p') (spare : Nat) :
    (Parser.many1 spare p).Agrees (Parser.many1 spare p') := by
  rw [Parser.many1_eq_seq, Parser.many1_eq_seq]
  exact h.seq (h.many spare)

theorem sepBy {q q' : Parser β} (hp : p.Agrees p') (hq : q.Agrees q') (spare : Nat) :
    (Parser.sepBy spare p q).Agrees (Parser.sepBy spare p' q') := by
  intro c
  rw [Parser.sepBy_eq, Parser.sepBy_eq]
  refine (hp c).handle (fun v c' => ?_) fun _ d d' h => ?_
  · exact (((hq.seq hp).map Prod.snd).many spare c').map (v :: ·)
  · exact .resume (fun _ => .refl _) h c.position

theorem joinTails {tail tail' : Parser (Tail α)} (h : tail.Agrees tail') (turns : Nat)
    (tree : Tree α) :
    (Parser.joinTails tail turns tree).Agrees (Parser.joinTails tail' turns tree) := by
  induction turns generalizing tree with
  | zero => exact .refl _
  | succ turns ih =>
    intro c
    rw [Parser.joinTails_succ, Parser.joinTails_succ]
    refine (h c).handle (fun t c' => ?_) fun _ d d' h => ?_
    · cases t with
      | more op right => exact ih _ c'
      | last op right => exact .refl _
    · exact .resume (fun _ => .refl _) h c.position

theorem chain {operand operand' : Parser (Tree α)} {tail tail' : Parser (Tail α)}
    (ho : operand.Agrees operand') (ht : tail.Agrees tail') (spare : Nat) :
    (Parser.chain spare operand tail).Agrees (Parser.chain spare operand' tail') :=
  fun c => (ho c).bind fun tree c' => ht.joinTails _ tree c'

theorem fix {body body' : Parser α → Parser α}
    (h : ∀ p p', p.Agrees p' → (body p).Agrees (body' p')) (spare : Nat) :
    (Parser.fix spare body).Agrees (Parser.fix spare body') := by
  have hturns : ∀ turns, (iterate body turns).Agrees (iterate body' turns) := by
    intro turns
    induction turns with
    | zero => exact .refl _
    | succ turns ih => exact h _ _ ih
  exact fun c => hturns _ c

end Agrees

end Parser

/-! ## Rules that are put back -/

namespace Rule
variable {Γ : List Type} {α β : Type}

/-- The rule that is put back to where it started when it fails. -/
def reset (rule : Rule Γ α) : Rule Γ α := .firstOf fun _ : Fin 1 => rule

theorem eval_reset (spare : Nat) (rule : Rule Γ α) (env : Env Γ) :
    rule.reset.eval spare env = Parser.reset (rule.eval spare env) := rfl

/-- **The rule in which every part is put back** to where it started when it fails. -/
def resetting {Γ : List Type} {α : Type} : Rule Γ α → Rule Γ α
  | token decode expected => reset (.token decode expected)
  | atEnd => reset .atEnd
  | dangling => reset .dangling
  | seq first second => reset (.seq first.resetting second.resetting)
  | map f rule => reset (.map f rule.resetting)
  | or first second => reset (.or first.resetting second.resetting)
  | filter accepts expected rule => reset (.filter accepts expected rule.resetting)
  | label name rule => reset (.label name rule.resetting)
  | firstOf rules => reset (.firstOf fun i => (rules i).resetting)
  | sequence rules => reset (.sequence fun i => (rules i).resetting)
  | many rule => reset (.many rule.resetting)
  | many1 rule => reset (.many1 rule.resetting)
  | sepBy item delimiter => reset (.sepBy item.resetting delimiter.resetting)
  | optional rule => reset (.optional rule.resetting)
  | commit rule => reset (.commit rule.resetting)
  | toEnd rule => reset (.toEnd rule.resetting)
  | orGroup operand group => reset (.orGroup operand.resetting group.resetting)
  | chain level operand tail => reset (.chain level operand.resetting tail.resetting)
  | fix body => reset (.fix body.resetting)
  | share shared body => reset (.share shared.resetting body.resetting)
  | ref x => reset (.ref x)

theorem exists_reset (rule : Rule Γ α) : ∃ rule' : Rule Γ α, rule.resetting = rule'.reset := by
  cases rule <;> exact ⟨_, rfl⟩

/-- **The cursor contract**: a rule that is put back leaves the cursor where it started when
it fails. -/
theorem position_of_resetting {rule : Rule Γ α} {spare : Nat} {env : Env Γ} {c c' : Cursor}
    {f : Failure} (h : rule.resetting.eval spare env c = .fail f c') (hf : f.isFatal = false) :
    c'.position = c.position := by
  obtain ⟨rule', hreset⟩ := rule.exists_reset
  rw [hreset, eval_reset] at h
  exact Parser.position_of_reset h hf

/-- **A rule agrees with the one that is put back**, if the rules in scope do. -/
theorem agrees_eval_resetting (spare : Nat) (rule : Rule Γ α) (env env' : Env Γ)
    (henv : ∀ β (x : Var Γ β), (env.get x).Agrees (env'.get x)) :
    (rule.eval spare env).Agrees (rule.resetting.eval spare env') := by
  induction rule with
  | token decode expected => exact Parser.Agrees.reset (.refl _)
  | atEnd => exact Parser.Agrees.reset (.refl _)
  | dangling => exact Parser.Agrees.reset (.refl _)
  | seq first second ih ih' => exact ((ih env env' henv).seq (ih' env env' henv)).reset
  | map f rule ih => exact ((ih env env' henv).map f).reset
  | or first second ih ih' => exact ((ih env env' henv).or (ih' env env' henv)).reset
  | filter accepts expected rule ih => exact ((ih env env' henv).filter accepts expected).reset
  | label name rule ih => exact ((ih env env' henv).label name).reset
  | firstOf rules ih => exact (Parser.Agrees.firstOf fun i => ih i env env' henv).reset
  | sequence rules ih => exact (Parser.Agrees.sequence fun i => ih i env env' henv).reset
  | many rule ih => exact ((ih env env' henv).many spare).reset
  | many1 rule ih => exact ((ih env env' henv).many1 spare).reset
  | sepBy item delimiter ih ih' =>
    exact ((ih env env' henv).sepBy (ih' env env' henv) spare).reset
  | optional rule ih => exact (ih env env' henv).optional.reset
  | commit rule ih => exact (ih env env' henv).commit.reset
  | toEnd rule ih => exact (ih env env' henv).toEnd.reset
  | orGroup operand group ih ih' => exact ((ih env env' henv).orGroup (ih' env env' henv)).reset
  | chain level operand tail ih ih' =>
    exact ((ih env env' henv).chain (ih' env env' henv) spare).reset
  | fix body ih =>
    refine (Parser.Agrees.fix (fun p p' hself => ih _ _ fun β x => ?_) spare).reset
    cases x with
    | here => exact hself
    | there x => exact henv β x
  | share shared body ih ih' =>
    refine Parser.Agrees.reset (ih' _ _ fun β x => ?_)
    cases x with
    | here => exact ih env env' henv
    | there x => exact henv β x
  | ref x => exact (henv _ x).reset

/-- **It makes no difference whether every part of a rule puts the cursor back.**  From
every cursor, a rule and the one in which each part does so give the same value with the
same cursor, or the same failure with the same record.  The runs of the latter leave the
cursor where it was when they fail.  A rule that repeats only what reads a token, without
left recursion, does give a value or a failure. -/
theorem run_agrees_resetting (rule : Rule [] α) (c : Cursor) :
    (rule.run c).Agrees (rule.resetting.run c) ∧
    (∀ f c', rule.resetting.run c = .fail f c' → f.isFatal = false → c'.position = c.position) ∧
    (rule.Productive → rule.run c ≠ .stalled) :=
  ⟨agrees_eval_resetting 0 rule .nil .nil nofun c, fun _ _ => position_of_resetting,
    fun h => h.run_ne_stalled c⟩

/-- Words in any number of parentheses, each after a plus sign. -/
def signedWords : Rule [] ((String × String) × List (String × String)) :=
  .many1 ((symbol "+").seq
    (.fix (.or (.token Token.word? "word") (.between (.symbol "(") (.symbol ")") (.ref .here)))))

/-- In `+ ( a`, the first turn stops behind the plus sign, and only the rule that is put back
returns to the start. -/
theorem run_agrees_resetting_signedWords :
    signedWords.Productive ∧
    (signedWords.run (.start [.symbol "+", .symbol "(", .word "a"])).Agrees
      (signedWords.resetting.run (.start [.symbol "+", .symbol "(", .word "a"])) ∧
    signedWords.run (.start [.symbol "+", .symbol "(", .word "a"]) ≠
      signedWords.resetting.run (.start [.symbol "+", .symbol "(", .word "a"]) ∧
    signedWords.run (.start [.symbol "+", .symbol "(", .word "a"]) ≠ .stalled := by
  have hadv : ∀ {Δ : List Type} (text : String) (sure : Marks Δ), (symbol text).Advances sure :=
    fun _ => advances_token _ _
  have hproductive : signedWords.Productive := by
    refine ⟨⟨trivial, trivial, ⟨?_, trivial⟩⟩, (hadv "+" _).seq _⟩
    exact ⟨trivial, Or.inr (hadv "(" _)⟩
  have h := run_agrees_resetting signedWords (.start [.symbol "+", .symbol "(", .word "a"])
  exact ⟨hproductive, h.1, by decide, h.2.2 hproductive⟩

end Rule

end Fixity
