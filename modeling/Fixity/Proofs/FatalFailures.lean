import Fixity.Proofs.Watching

/-! # Fatal failures pass

Once a rule is left with a fatal failure, no rule is entered any more.  The rules that are
still open are left one after the other, each with the same failure and with the cursor as
it was, the record included; and so ends the run (`Rule.fatal_failure_passes`).

This is one fact about going on after an outcome (`Watched.Seals.after`), which covers
entering and leaving too.  Every way of building a rule consists of such steps.
-/
namespace Fixity

namespace Watched
variable {α β : Type} {w : Watched α}

/-- **A fatal failure is the last that happens**: behind it, rules are only left, all of
them with this failure. -/
def Seals (w : Watched α) : Prop :=
  ∀ before after f c, w.moments = before ++ .left (.fail f c) :: after → f.isFatal = true →
    (∀ m ∈ after, m = .left (.fail f c)) ∧ w.outcome = .fail f c

namespace Seals

theorem still (o : Outcome α) : (still o).Seals := by
  intro before after f c hm
  exact absurd hm.symm (by simp [Watched.still])

/-- A run behind another one that lets fatal failures pass. -/
theorem after {next : Outcome α → Watched β} (h : w.Seals) (hnext : (next w.outcome).Seals)
    (hpass : ∀ f c, w.outcome = .fail f c → f.isFatal = true →
      (∀ m ∈ (next (.fail f c)).moments, m = .left (.fail f c)) ∧
        (next (.fail f c)).outcome = .fail f c) : (w.after next).Seals := by
  intro before after f c hm hf
  change w.moments ++ (next w.outcome).moments = _ at hm
  change _ ∧ (next w.outcome).outcome = _
  rcases List.append_eq_append_iff.mp hm with ⟨ms, -, hrest⟩ | ⟨ms, hfirst, hrest⟩
  · exact hnext ms after f c hrest hf
  · rcases List.cons_eq_append_iff.mp hrest with ⟨-, hrest⟩ | ⟨ms, rfl, rfl⟩
    · exact hnext [] after f c hrest hf
    · -- The failure lies in the first run, and what comes behind it passes it on.
      obtain ⟨hall, ho⟩ := h before ms f c hfirst hf
      rw [ho]
      obtain ⟨hall', ho'⟩ := hpass f c ho hf
      exact ⟨List.forall_mem_append.mpr ⟨hall, hall'⟩, ho'⟩

theorem handle {next : α → Cursor → Watched β} {rescue : Failure → Cursor → Watched β}
    (h : w.Seals) (hnext : ∀ v c, (next v c).Seals) (hrescue : ∀ f c, (rescue f c).Seals) :
    (w.handle next rescue).Seals := by
  refine h.after ?_ fun f c _ hf => ?_
  · split
    · exact hnext _ _
    · split
      · exact .still _
      · exact hrescue _ _
    · exact .still _
  · simp [hf, Watched.still]

theorem bind {next : α → Cursor → Watched β} (h : w.Seals) (hnext : ∀ v c, (next v c).Seals) :
    (w.bind next).Seals :=
  h.handle hnext fun _ _ => .still _

theorem recover {next : Failure → Cursor → Watched α} (h : w.Seals)
    (hnext : ∀ f c, (next f c).Seals) : (w.recover next).Seals :=
  h.handle (fun _ _ => .still _) hnext

theorem map {f : α → β} (h : w.Seals) : (w.map f).Seals := h.bind fun _ _ => .still _

/-- A rule that is left. -/
theorem left (o : Outcome α) : (⟨o, [.left o.ending]⟩ : Watched α).Seals := by
  intro before after f c hm _
  obtain ⟨-, hm⟩ | ⟨-, hm⟩ := List.append_eq_singleton_iff.mp hm.symm
  · cases o with
    | fail g c' =>
      cases hm
      exact ⟨by simp, rfl⟩
    | ok v c' => cases hm
    | stalled => cases hm
  · cases hm

/-- A rule that is entered and left. -/
theorem enclose (c : Cursor) (h : w.Seals) : (w.enclose c).Seals := by
  have hleft : (w.after fun o => ⟨o, [.left o.ending]⟩).Seals :=
    h.after (.left _) fun f c _ _ => ⟨by simp [Outcome.ending], rfl⟩
  intro before after f c' hm hf
  rcases List.cons_eq_append_iff.mp hm with ⟨-, hm⟩ | ⟨before, -, hm⟩
  · cases hm
  · exact hleft before after f c' hm hf

end Seals

end Watched

/-- Fatal failures are the last that happens in the runs of a parser. -/
def Watcher.Seals {α : Type} (p : Watcher α) : Prop := ∀ c, (p c).Seals

namespace Watcher.Seals
variable {α β : Type} {p q : Watcher α}

theorem noted (hp : p.Seals) : p.noted.Seals := fun c => (hp c).enclose c

theorem alone (p : Parser α) : (alone p).Seals := fun _ => .still _

theorem seq {q : Watcher β} (hp : p.Seals) (hq : q.Seals) : (Watcher.seq p q).Seals :=
  fun c => (hp c).bind fun _ c' => (hq c').map

theorem map {f : α → β} (hp : p.Seals) : (Watcher.map f p).Seals := fun c => (hp c).map

theorem or (hp : p.Seals) (hq : q.Seals) : (Watcher.or p q).Seals :=
  fun c => (hp c).recover fun _ _ => (hq _).recover fun _ _ => .still _

theorem filter {accepts : α → Bool} {expected : String} (hp : p.Seals) :
    (Watcher.filter accepts expected p).Seals :=
  fun c => (hp c).bind fun _ _ => .still _

theorem label {name : String} (hp : p.Seals) : (Watcher.label name p).Seals :=
  fun c => (hp c).recover fun _ _ => .still _

theorem tryEach {ps : List (Watcher α)} (hps : ∀ p ∈ ps, p.Seals) (start : Nat)
    (failure : Option Failure) : (Watcher.tryEach start ps failure).Seals := by
  induction ps generalizing failure with
  | nil => exact .alone _
  | cons p ps ih =>
    obtain ⟨hp, hrest⟩ := List.forall_mem_cons.mp hps
    exact fun c => (hp c).recover fun _ _ => ih hrest _ _

theorem firstOf {ps : List (Watcher α)} (hps : ∀ p ∈ ps, p.Seals) : (Watcher.firstOf ps).Seals :=
  fun c => tryEach hps c.position none c

theorem sequence {ps : List (Watcher α)} (hps : ∀ p ∈ ps, p.Seals) :
    (Watcher.sequence ps).Seals := by
  induction ps with
  | nil => exact .alone _
  | cons p ps ih =>
    obtain ⟨hp, hrest⟩ := List.forall_mem_cons.mp hps
    exact fun c => (hp c).bind fun _ c' => (ih hrest c').map

theorem optional (hp : p.Seals) : (Watcher.optional p).Seals :=
  fun c => (hp c).map.recover fun _ _ => .still _

theorem commit (hp : p.Seals) : (Watcher.commit p).Seals :=
  fun c => (hp c).recover fun _ _ => .still _

theorem toEnd (hp : p.Seals) : (Watcher.toEnd p).Seals := fun c => (hp c).bind fun _ _ => .still _

theorem orGroup (hp : p.Seals) (hq : q.Seals) : (Watcher.orGroup p q).Seals := by
  refine fun c => (hp c).recover fun f c' => ?_
  split
  · exact (hq _).recover fun _ _ => .still _
  · exact .still _

theorem collect (hp : p.Seals) (turns : Nat) : (Watcher.collect p turns).Seals := by
  induction turns with
  | zero => exact .alone _
  | succ turns ih => exact fun c => (hp c).handle (fun _ c' => (ih c').map) fun _ _ => .still _

theorem many (hp : p.Seals) (spare : Nat) : (Watcher.many spare p).Seals :=
  fun c => hp.collect _ c

theorem many1 (hp : p.Seals) (spare : Nat) : (Watcher.many1 spare p).Seals :=
  fun c => (hp c).bind fun _ c' => (hp.many spare c').map

theorem sepBy {delimiter : Watcher β} (hp : p.Seals) (hd : delimiter.Seals) (spare : Nat) :
    (Watcher.sepBy spare p delimiter).Seals :=
  fun c => (hp c).handle (fun _ c' => ((hd.seq hp).map.many spare c').map) fun _ _ => .still _

theorem joinTails {tail : Watcher (Tail α)} (ht : tail.Seals) (turns : Nat) (tree : Tree α) :
    (Watcher.joinTails tail turns tree).Seals := by
  induction turns generalizing tree with
  | zero => exact .alone _
  | succ turns ih =>
    refine fun c => (ht c).handle (fun t c' => ?_) fun _ _ => .still _
    cases t with
    | more op right => exact ih _ c'
    | last op right => exact .still _

theorem chain {operand : Watcher (Tree α)} {tail : Watcher (Tail α)} (ho : operand.Seals)
    (ht : tail.Seals) (spare : Nat) : (Watcher.chain spare operand tail).Seals :=
  fun c => (ho c).bind fun tree c' => ht.joinTails _ tree c'

theorem fix {body : Watcher α → Watcher α} (h : ∀ p : Watcher α, p.Seals → (body p).Seals)
    (spare : Nat) : (Watcher.fix spare body).Seals := by
  have key : ∀ turns, (Watcher.iterate body turns).Seals := by
    intro turns
    induction turns with
    | zero => exact .alone _
    | succ turns ih => exact h _ ih
  exact fun c => key _ c

end Watcher.Seals

namespace Rule

/-- Fatal failures pass through every rule, if they do so through the rules in scope. -/
theorem seals_watch {Γ : List Type} {α : Type} (spare : Nat) (rule : Rule Γ α) (ws : Watchers Γ)
    (h : ∀ β (x : Var Γ β), (ws β x).Seals) : (rule.watch spare ws).Seals := by
  induction rule with
  | token decode expected => exact .noted (.alone _)
  | atEnd => exact .noted (.alone _)
  | dangling => exact .noted (.alone _)
  | seq first second ih ih' => exact .noted ((ih ws h).seq (ih' ws h))
  | map f rule ih => exact .noted (ih ws h).map
  | or first second ih ih' => exact .noted ((ih ws h).or (ih' ws h))
  | filter accepts expected rule ih => exact .noted (ih ws h).filter
  | label name rule ih => exact .noted (ih ws h).label
  | firstOf rules ih =>
    refine .noted (.firstOf ?_)
    simp only [List.mem_ofFn, forall_exists_index]
    rintro _ i rfl
    exact ih i ws h
  | sequence rules ih =>
    refine .noted (.sequence ?_)
    simp only [List.mem_ofFn, forall_exists_index]
    rintro _ i rfl
    exact ih i ws h
  | many rule ih => exact .noted ((ih ws h).many spare)
  | many1 rule ih => exact .noted ((ih ws h).many1 spare)
  | sepBy item delimiter ih ih' => exact .noted ((ih ws h).sepBy (ih' ws h) spare)
  | optional rule ih => exact .noted (ih ws h).optional
  | commit rule ih => exact .noted (ih ws h).commit
  | toEnd rule ih => exact .noted (ih ws h).toEnd
  | orGroup operand group ih ih' => exact .noted ((ih ws h).orGroup (ih' ws h))
  | chain level operand tail ih ih' => exact .noted ((ih ws h).chain (ih' ws h) spare)
  | fix body ih =>
    refine .noted (.fix (fun self hself => ih _ fun β x => ?_) spare)
    cases x with
    | here => exact hself
    | there x => exact h β x
  | share shared body ih ih' =>
    refine .noted (ih' _ fun β x => ?_)
    cases x with
    | here => exact ih ws h
    | there x => exact h β x
  | ref x => exact .noted (h _ x)

/-- **Fatal failures are neither swallowed nor changed.**  If, in the course of a run, any
rule is left with a fatal failure, then no rule is entered any more, every rule that is
still open is left with that failure and that cursor, and so is the whole rule. -/
theorem fatal_failure_passes {α : Type} (rule : Rule [] α) (spare : Nat) (c : Cursor)
    {before after : List Moment} {f : Failure} {c' : Cursor}
    (h : (rule.watch spare .nil c).moments = before ++ .left (.fail f c') :: after)
    (hf : f.isFatal = true) :
    rule.eval spare .nil c = .fail f c' ∧ ∀ m ∈ after, m = .left (.fail f c') := by
  obtain ⟨hall, ho⟩ := rule.seals_watch spare .nil nofun c before after f c' h hf
  rw [outcome_watch] at ho
  exact ⟨ho, hall⟩

/-- A choice whose first alternative commits itself and fails: the second one, which would
fit, is not entered. -/
theorem fatal_failure_passes_choice :
    (Rule.optional (.or (.commit (.symbol "a")) (.symbol "b")) : Rule [] (Option String)).eval 0
        .nil (.start [.symbol "b"]) =
      .fail ⟨0, ["'a'"], some "'b'", .fatal, .unexpected⟩
        ⟨[.symbol "b"], 0, some ⟨0, ["'a'"], some "'b'", .recoverable, .unexpected⟩,
          [⟨0, ["'a'"], some "'b'", .recoverable, .unexpected⟩]⟩ := by
  let c := Cursor.start [.symbol "b"]
  let f := c.unmet "'a'"
  let ending := Ending.fail f.toFatal ((c.remember f).rememberFatal f)
  have h : ((Rule.optional (.or (.commit (.symbol "a")) (.symbol "b")) :
      Rule [] (Option String)).watch 0 .nil c).moments =
        [.entered c, .entered c, .entered c, .entered c, .left (.fail f (c.remember f))] ++
          .left ending :: [.left ending, .left ending] := by decide +kernel
  exact (fatal_failure_passes _ 0 c h rfl).1

end Rule

end Fixity
