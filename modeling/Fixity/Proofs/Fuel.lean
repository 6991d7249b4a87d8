import Mathlib.Data.Finset.Lattice.Fold
import Mathlib.Data.Fintype.Basic
import Mathlib.Order.Lattice.Nat
import Fixity.Proofs.Progress

/-! # Runs on fuel

`Rule.spend` is a second way to run a rule, by recursion on a supply of fuel.  Every step
down into a part of the rule costs one unit, and so does every entry of a recursive rule
into itself; a loop takes no more turns than there are units.  Nothing else bounds a run,
and it is **strict**: a loop stalls unless each of its turns reads a token
(`Parser.moving`), and a recursive rule stalls if it enters itself where no fewer tokens are
left than where it was entered (`Parser.below`).

For a rule that repeats only what reads a token, without left recursion, one unit for each
token that is left and as many as the rule is high are enough
(`Rule.Grounded.spend_eq_eval`): the strict run ends, and it is the run of the rule.  So
more fuel changes nothing, and each turn and each entry did read on.
-/
namespace Fixity

/-! ## Running on fuel -/

namespace Parser
variable {α : Type}

/-- The parser with the demand that its values read a token. -/
def moving (p : Parser α) : Parser α := fun c =>
  (p c).bind fun v c' => if c'.remaining < c.remaining then .ok v c' else .stalled

/-- The parser with the demand that it is entered where fewer than `n` tokens are left. -/
def below (n : Nat) (p : Parser α) : Parser α := fun c =>
  if c.remaining < n then p c else .stalled

end Parser

namespace Rule

/-- **The strict run of a rule on fuel.** -/
def spend : Nat → ∀ {Γ : List Type} {α : Type}, Rule Γ α → Env Γ → Parser α
  | 0, _, _, _, _ => fun _ => .stalled
  | _ + 1, _, _, token decode expected, _ => .token decode expected
  | _ + 1, _, _, atEnd, _ => .atEnd
  | _ + 1, _, _, dangling, _ => .dangling
  | n + 1, _, _, seq first second, env => .seq (first.spend n env) (second.spend n env)
  | n + 1, _, _, map f rule, env => .map f (rule.spend n env)
  | n + 1, _, _, or first second, env => .or (first.spend n env) (second.spend n env)
  | n + 1, _, _, filter accepts expected rule, env =>
    .filter accepts expected (rule.spend n env)
  | n + 1, _, _, label name rule, env => .label name (rule.spend n env)
  | n + 1, _, _, firstOf rules, env => .firstOf (List.ofFn fun i => (rules i).spend n env)
  | n + 1, _, _, sequence rules, env => .sequence (List.ofFn fun i => (rules i).spend n env)
  | n + 1, _, _, many rule, env => .collect (.moving (rule.spend n env)) n
  | n + 1, _, _, many1 rule, env => fun c =>
    (Parser.moving (rule.spend n env) c).bind fun v c' =>
      (Parser.collect (.moving (rule.spend n env)) n c').map fun vs => (v, vs)
  | n + 1, _, _, sepBy item delimiter, env => fun c =>
    (item.spend n env c).handle
      (fun v c' => (Parser.collect (.moving (.map Prod.snd
        (.seq (delimiter.spend n env) (item.spend n env)))) n c').map (v :: ·))
      fun _ c' => .ok [] (c'.restore c.position)
  | n + 1, _, _, optional rule, env => .optional (rule.spend n env)
  | n + 1, _, _, commit rule, env => .commit (rule.spend n env)
  | n + 1, _, _, toEnd rule, env => .toEnd (rule.spend n env)
  | n + 1, _, _, orGroup operand group, env => .orGroup (operand.spend n env) (group.spend n env)
  | n + 1, _, _, chain _ operand tail, env => fun c =>
    (operand.spend n env c).bind fun tree c' =>
      Parser.joinTails (.moving (tail.spend n env)) n tree c'
  | n + 1, _, _, fix body, env => fun c =>
    body.spend n (.cons (.below c.remaining ((fix body).spend n env)) env) c
  | n + 1, _, _, share shared body, env => body.spend n (.cons (shared.spend n env) env)
  | _ + 1, _, _, ref x, env => env.get x

/-- The height of a rule: how many parts lie in each other. -/
def height {Γ : List Type} {α : Type} : Rule Γ α → Nat
  | token _ _ => 1
  | atEnd => 1
  | dangling => 1
  | seq first second => max first.height second.height + 1
  | map _ rule => rule.height + 1
  | or first second => max first.height second.height + 1
  | filter _ _ rule => rule.height + 1
  | label _ rule => rule.height + 1
  | firstOf rules => (Finset.univ.sup fun i => (rules i).height) + 1
  | sequence rules => (Finset.univ.sup fun i => (rules i).height) + 1
  | many rule => rule.height + 1
  | many1 rule => rule.height + 1
  | sepBy item delimiter => max item.height delimiter.height + 1
  | optional rule => rule.height + 1
  | commit rule => rule.height + 1
  | toEnd rule => rule.height + 1
  | orGroup operand group => max operand.height group.height + 1
  | chain _ operand tail => max operand.height tail.height + 1
  | fix body => body.height + 1
  | share shared body => max shared.height body.height + 1
  | ref _ => 1

theorem height_pos {Γ : List Type} {α : Type} (rule : Rule Γ α) : 0 < rule.height := by
  cases rule <;> exact Nat.succ_pos _

end Rule

/-! ## Parsers that agree where few tokens are left -/

namespace Outcome
variable {α β : Type} {o : Outcome α}

theorem handle_congr {next next' : α → Cursor → Outcome β}
    {rescue rescue' : Failure → Cursor → Outcome β}
    (hnext : ∀ v c, o = .ok v c → next v c = next' v c)
    (hrescue : ∀ f c, o = .fail f c → rescue f c = rescue' f c) :
    o.handle next rescue = o.handle next' rescue' := by
  cases o with
  | ok v c => exact hnext v c rfl
  | fail f c => simp only [handle, hrescue f c rfl]
  | stalled => rfl

theorem bind_congr {next next' : α → Cursor → Outcome β}
    (hnext : ∀ v c, o = .ok v c → next v c = next' v c) : o.bind next = o.bind next' := by
  rw [bind_eq_handle, bind_eq_handle]
  exact handle_congr hnext fun _ _ _ => rfl

theorem recover_congr {next next' : Failure → Cursor → Outcome α}
    (hnext : ∀ f c, o = .fail f c → next f c = next' f c) : o.recover next = o.recover next' := by
  rw [recover_eq_handle, recover_eq_handle]
  exact handle_congr (fun _ _ _ => rfl) hnext

end Outcome

namespace Parser
variable {α β : Type} {p p' q q' : Parser α} {n : Nat}

/-- **The parsers agree** wherever at most so many tokens are left. -/
def SameWithin (n : Nat) (p p' : Parser α) : Prop := ∀ c, c.remaining ≤ n → p c = p' c

/-- Two parsers agree behind the values of another one. -/
def SameBehind (n : Nat) (p : Parser α) (q q' : Parser β) : Prop :=
  ∀ c v c', c.remaining ≤ n → p c = .ok v c' → SameWithin c'.remaining q q'

namespace SameWithin

open Outcome

theorem refl (n : Nat) (p : Parser α) : SameWithin n p p := fun _ _ => rfl

theorem mono {m : Nat} (h : SameWithin n p p') (hm : m ≤ n) : SameWithin m p p' :=
  fun c hc => h c (Nat.le_trans hc hm)

theorem behind {q q' : Parser β} (h : SameWithin n q q') (hfwd : forward.Keeps p) :
    SameBehind n p q q' :=
  fun _ _ _ hc hok => h.mono (Nat.le_trans (ahead_of_ok hfwd hok).remaining_le hc)

theorem map (h : SameWithin n p p') (f : α → β) :
    SameWithin n (Parser.map f p) (Parser.map f p') :=
  fun c hc => congrArg (Outcome.map f) (h c hc)

theorem filter (h : SameWithin n p p') (accepts : α → Bool) (expected : String) :
    SameWithin n (Parser.filter accepts expected p) (Parser.filter accepts expected p') :=
  fun c hc => congrArg (Outcome.bind · _) (h c hc)

theorem commit (h : SameWithin n p p') : SameWithin n (Parser.commit p) (Parser.commit p') :=
  fun c hc => congrArg (Outcome.recover · _) (h c hc)

theorem toEnd (h : SameWithin n p p') : SameWithin n (Parser.toEnd p) (Parser.toEnd p') :=
  fun c hc => congrArg (Outcome.bind · _) (h c hc)

theorem label (h : SameWithin n p p') (name : String) :
    SameWithin n (Parser.label name p) (Parser.label name p') :=
  fun c hc => congrArg (Outcome.recover · _) (h c hc)

theorem optional (h : SameWithin n p p') :
    SameWithin n (Parser.optional p) (Parser.optional p') :=
  fun c hc => congrArg (fun o => Outcome.recover (Outcome.map some o) _) (h c hc)

theorem seq {q q' : Parser β} (hp : SameWithin n p p') (hq : SameBehind n p' q q') :
    SameWithin n (Parser.seq p q) (Parser.seq p' q') := by
  intro c hc
  unfold Parser.seq
  rw [hp c hc]
  refine bind_congr fun v c' hok => ?_
  rw [hq c v c' hc hok c' (Nat.le_refl _)]

/-- Another parser, after the cursor has been moved back. -/
theorem again (hq : SameWithin n q q') (hfwd : forward.Keeps p) {c c' : Cursor} {f : Failure}
    (hc : c.remaining ≤ n) (h : p c = .fail f c') :
    q (c'.restore c.position) = q' (c'.restore c.position) :=
  hq _ (Nat.le_trans (ahead_of_fail hfwd h).restore.remaining_le hc)

theorem or (hp : SameWithin n p p') (hq : SameWithin n q q') (hfwd : forward.Keeps p') :
    SameWithin n (Parser.or p q) (Parser.or p' q') := by
  intro c hc
  unfold Parser.or
  rw [hp c hc]
  refine recover_congr fun f c' h => ?_
  rw [hq.again hfwd hc h]

theorem orGroup (hp : SameWithin n p p') (hq : SameWithin n q q') (hfwd : forward.Keeps p') :
    SameWithin n (Parser.orGroup p q) (Parser.orGroup p' q') := by
  intro c hc
  unfold Parser.orGroup
  rw [hp c hc]
  refine recover_congr fun f c' h => ?_
  rw [hq.again hfwd hc h]

theorem tryEach {m : Nat} {ps ps' : Fin m → Parser α} (h : ∀ i, SameWithin n (ps i) (ps' i))
    (hfwd : ∀ i, forward.Keeps (ps' i)) (failure : Option Failure) {c : Cursor}
    (hc : c.remaining ≤ n) :
    Parser.tryEach c.position (List.ofFn ps) failure c =
      Parser.tryEach c.position (List.ofFn ps') failure c := by
  induction m generalizing c failure with
  | zero => rfl
  | succ m ih =>
    simp only [List.ofFn_succ, Parser.tryEach, h 0 c hc]
    refine recover_congr fun f c' hfail => ?_
    have hback := (ahead_of_fail (hfwd 0) hfail).restore.remaining_le
    exact ih (fun i => h i.succ) (fun i => hfwd i.succ) _ (c := c'.restore c.position)
      (Nat.le_trans hback hc)

theorem firstOf {m : Nat} {ps ps' : Fin m → Parser α} (h : ∀ i, SameWithin n (ps i) (ps' i))
    (hfwd : ∀ i, forward.Keeps (ps' i)) :
    SameWithin n (Parser.firstOf (List.ofFn ps)) (Parser.firstOf (List.ofFn ps')) :=
  fun _ hc => tryEach h hfwd none hc

/-- Parsers in order.  Each of them is run behind those before it. -/
theorem sequence {m : Nat} {ps ps' : Fin m → Parser α} (hfwd : ∀ i, forward.Keeps (ps' i))
    (hps : ∀ i k, k ≤ n → ((∃ j < i, (ps' j).Advances) → k < n) → SameWithin k (ps i) (ps' i)) :
    SameWithin n (Parser.sequence (List.ofFn ps)) (Parser.sequence (List.ofFn ps')) := by
  induction m generalizing n with
  | zero => exact refl n _
  | succ m ih =>
    intro c hc
    have hfirst : SameWithin n (ps 0) (ps' 0) := by
      refine hps 0 n (Nat.le_refl n) ?_
      rintro ⟨j, hj, -⟩
      exact absurd hj (Nat.not_lt_zero _)
    simp only [List.ofFn_succ, Parser.sequence, hfirst c hc]
    refine bind_congr fun v c' h => congrArg (Outcome.map _) ?_
    have hle := (ahead_of_ok (hfwd 0) h).remaining_le
    refine ih (fun i => hfwd i.succ) (fun i k hk hlt => ?_) c' (Nat.le_refl _)
    refine hps i.succ k (by omega) ?_
    -- The first parser has read a token, or one of the others does.
    rintro ⟨j, hj, hadv⟩
    cases j using Fin.cases with
    | zero =>
      have := hadv c v c' h
      omega
    | succ j =>
      have := hlt ⟨j, Fin.succ_lt_succ_iff.mp hj, hadv⟩
      omega

/-- What reads a token anyway meets the demand. -/
theorem moving (h : SameWithin n p p') (hadv : p'.Advances) :
    SameWithin n (Parser.moving p) p' := by
  intro c hc
  unfold Parser.moving
  rw [h c hc]
  cases hp : p' c with
  | ok v c' => exact if_pos (hadv c v c' hp)
  | fail f c' => rfl
  | stalled => rfl

/-- Two loops with turns enough for the tokens that are left. -/
theorem collect (h : SameWithin n p p') (hadv : p'.Advances) {turns turns' : Nat} {c : Cursor}
    (hc : c.remaining ≤ n) (hturns : c.remaining < turns) (hturns' : c.remaining < turns') :
    Parser.collect p turns c = Parser.collect p' turns' c := by
  induction turns generalizing c turns' with
  | zero => exact absurd hturns (Nat.not_lt_zero _)
  | succ turns ih =>
    obtain ⟨turns', rfl⟩ : ∃ k, turns' = k + 1 := ⟨turns' - 1, by omega⟩
    rw [Parser.collect_succ, Parser.collect_succ, h c hc]
    refine handle_congr (fun v c' hok => congrArg (Outcome.map _) ?_) fun _ _ _ => rfl
    have hlt := hadv c v c' hok
    exact ih (by omega) (by omega) (by omega)

theorem joinTails {tail tail' : Parser (Tail α)} (h : SameWithin n tail tail')
    (hadv : tail'.Advances) {turns turns' : Nat} (tree : Tree α) {c : Cursor}
    (hc : c.remaining ≤ n) (hturns : c.remaining < turns) (hturns' : c.remaining < turns') :
    Parser.joinTails tail turns tree c = Parser.joinTails tail' turns' tree c := by
  induction turns generalizing c tree turns' with
  | zero => exact absurd hturns (Nat.not_lt_zero _)
  | succ turns ih =>
    obtain ⟨turns', rfl⟩ : ∃ k, turns' = k + 1 := ⟨turns' - 1, by omega⟩
    rw [Parser.joinTails_succ, Parser.joinTails_succ, h c hc]
    refine handle_congr (fun t c' hok => ?_) fun _ _ _ => rfl
    have hlt := hadv c t c' hok
    cases t with
    | more op right => exact ih _ (by omega) (by omega) (by omega)
    | last op right => rfl

end SameWithin

end Parser

/-! ## Enough fuel -/

/-- **The rules in scope agree**, those that are free wherever at most `n` tokens are left,
the others where there are fewer. -/
structure Env.Agree {Γ : List Type} (env env' : Env Γ) (free : Marks Γ) (n : Nat) : Prop where
  within : ∀ β (x : Var Γ β), free β x → Parser.SameWithin n (env.get x) (env'.get x)
  below : ∀ β (x : Var Γ β), ∀ m < n, Parser.SameWithin m (env.get x) (env'.get x)

namespace Env.Agree
variable {Γ : List Type} {γ : Type} {env env' : Env Γ} {free : Marks Γ} {n m : Nat}

/-- Where fewer tokens are left, every rule is free. -/
theorem later {h : Prop} (henv : env.Agree env' free n) (hm : m ≤ n) (hlt : h → m < n) :
    env.Agree env' (free.orIf h) m where
  within β x hx := by
    rcases hx with hx | hx
    · exact (henv.within β x hx).mono hm
    · exact henv.below β x m (hlt hx)
  below β x k hk := henv.below β x k (by omega)

theorem refl (env : Env Γ) (free : Marks Γ) (n : Nat) : env.Agree env free n :=
  ⟨fun _ _ _ => .refl n _, fun _ _ m _ => .refl m _⟩

theorem mono (henv : env.Agree env' free n) (hm : m ≤ n) : env.Agree env' free m where
  within β x hx := (henv.within β x hx).mono hm
  below β x k hk := henv.below β x k (by omega)

theorem cons {p p' : Parser γ} {here : Prop} (henv : env.Agree env' free n)
    (hwithin : here → Parser.SameWithin n p p') (hbelow : ∀ m < n, Parser.SameWithin m p p') :
    (Env.cons p env).Agree (.cons p' env') (free.cons here) n where
  within β x hx := by
    cases x with
    | here => exact hwithin hx
    | there x => exact henv.within β x hx
  below β x := by
    cases x with
    | here => exact hbelow
    | there x => exact henv.below β x

end Env.Agree

namespace Rule
variable {Γ : List Type} {α β : Type} {env env' : Env Γ} {sure free : Marks Γ} {n : Nat}

/-- Behind a rule that reads a token, every rule is free. -/
theorem sameBehind {first : Rule Γ α} {second : Rule Γ β} {fuel spare : Nat}
    (henv : env.Bears sure free n) (hagree : env'.Agree env free n)
    (h : ∀ m ≤ n, env.Bears sure (free.orIf (first.Advances sure)) m →
      env'.Agree env (free.orIf (first.Advances sure)) m →
      Parser.SameWithin m (second.spend fuel env') (second.eval spare env)) :
    Parser.SameBehind n (first.eval spare env) (second.spend fuel env')
      (second.eval spare env) := by
  intro c v c' hc hok
  have hahead := Parser.ahead_of_ok (forward.keeps_eval spare first env henv.keeps) hok
  have hle := Nat.le_trans hahead.remaining_le hc
  have hlt : first.Advances sure → c'.remaining < n := by
    intro hadv
    have := hadv spare env henv.keeps henv.advances c v c' hok
    omega
  exact h _ hle (henv.later hle hlt) (hagree.later hle hlt)

/-- The turns of a grounded recursive rule end, where there are more of them than tokens. -/
theorem haltsWithin_iterate {body : Rule (α :: Γ) α} (h : (fix body).Grounded sure free)
    (henv : env.Bears sure free n) (spare : Nat) {turns m : Nat} (hm : m ≤ n)
    (hturns : m < turns) :
    (Parser.iterate (fun self => body.eval spare (.cons self env)) turns).HaltsWithin m := by
  induction turns generalizing m with
  | zero => exact absurd hturns (Nat.not_lt_zero _)
  | succ turns ih =>
    have hbody : body.Grounded (sure.cons (body.Advances (sure.cons True))) (free.cons False) := h
    refine hbody.haltsWithin ?_ spare
    exact (henv.mono hm).cons (keeps_iterate body henv spare turns)
      (fun hadv => advances_iterate hadv henv spare turns) nofun
      fun k hk => ih (by omega) (by omega)

/-- The strict run of a recursive rule, where that of its body is the run of it. -/
theorem spend_fix {body : Rule (α :: Γ) α} (h : (fix body).Grounded sure free)
    (henv : env.Bears sure free n) (hagree : env'.Agree env free n) (spare : Nat)
    (ih : ∀ {sure free : Marks (α :: Γ)} {env env' : Env (α :: Γ)} {n fuel : Nat},
      body.Grounded sure free → env.Bears sure free n → env'.Agree env free n →
      body.height + n ≤ fuel →
      Parser.SameWithin n (body.spend fuel env') (body.eval spare env))
    {m turns fuel : Nat} (hm : m ≤ n) (hturns : m < turns) (hfuel : (fix body).height + m ≤ fuel) :
    Parser.SameWithin m ((fix body).spend fuel env')
      (Parser.iterate (fun self => body.eval spare (.cons self env)) turns) := by
  induction turns generalizing m fuel with
  | zero => exact absurd hturns (Nat.not_lt_zero _)
  | succ turns ihturns =>
    intro c hc
    change body.height + 1 + m ≤ fuel at hfuel
    obtain ⟨fuel, rfl⟩ : ∃ k, fuel = k + 1 := ⟨fuel - 1, by omega⟩
    -- The body is run on the tokens that are left here; it enters itself only on fewer.
    refine ih (n := c.remaining) h ((henv.mono (by omega)).cons
      (keeps_iterate body henv spare turns) (fun hadv => advances_iterate hadv henv spare turns)
      nofun fun k hk => haltsWithin_iterate h henv spare (by omega) (by omega))
      ((hagree.mono (by omega)).cons nofun fun k hk c' hc' => ?_) (by omega) c (Nat.le_refl _)
    rw [Parser.below, if_pos (by omega)]
    refine ihturns (m := k) (by omega) (by omega) ?_ c' hc'
    show body.height + 1 + k ≤ fuel
    omega

theorem height_le_sup {m : Nat} (rules : Fin m → Rule Γ α) (i : Fin m) :
    (rules i).height ≤ Finset.univ.sup fun i => (rules i).height :=
  Finset.le_sup (f := fun i => (rules i).height) (Finset.mem_univ i)

/-- A run needs a unit for the rule itself. -/
theorem exists_fuel (rule : Rule Γ α) {k fuel : Nat} (h : rule.height + k ≤ fuel) :
    ∃ fuel', fuel = fuel' + 1 := by
  have hpos := rule.height_pos
  exact ⟨fuel - 1, by omega⟩

/-- **With fuel for its height and for each token that is left, the strict run of a grounded
rule is its run.** -/
theorem Grounded.spend_eq_eval {rule : Rule Γ α} (h : rule.Grounded sure free)
    (henv : env.Bears sure free n) (hagree : env'.Agree env free n) {fuel : Nat}
    (hfuel : rule.height + n ≤ fuel) (spare : Nat) :
    Parser.SameWithin n (rule.spend fuel env') (rule.eval spare env) := by
  induction rule generalizing n fuel with
    (obtain ⟨fuel, rfl⟩ := exists_fuel _ hfuel; simp only [height] at hfuel)
  | token decode expected => exact .refl n _
  | atEnd => exact .refl n _
  | dangling => exact .refl n _
  | seq first second ih ih' =>
    refine (ih h.1 henv hagree (by omega)).seq (sameBehind henv hagree fun m hm hb ha => ?_)
    exact ih' h.2 hb ha (by omega)
  | map f rule ih => exact (ih h henv hagree (by omega)).map f
  | or first second ih ih' =>
    exact (ih h.1 henv hagree (by omega)).or (ih' h.2 henv hagree (by omega))
      (forward.keeps_eval spare first env henv.keeps)
  | filter accepts expected rule ih =>
    exact (ih h henv hagree (by omega)).filter accepts expected
  | label name rule ih => exact (ih h henv hagree (by omega)).label name
  | firstOf rules ih =>
    refine .firstOf (fun i => ih i (h i) henv hagree ?_)
      fun i => forward.keeps_eval spare (rules i) env henv.keeps
    have := height_le_sup rules i
    omega
  | sequence rules ih =>
    refine .sequence (fun i => forward.keeps_eval spare (rules i) env henv.keeps) ?_
    intro i k hk hlt
    have hle := height_le_sup rules i
    have hlt' : (∃ j < i, (rules j).Advances sure) → k < n := by
      rintro ⟨j, hj, hadv⟩
      exact hlt ⟨j, hj, hadv spare env henv.keeps henv.advances⟩
    exact ih i (h i) (henv.later hk hlt') (hagree.later hk hlt') (by omega)
  | many rule ih =>
    have hadv := h.2 spare env henv.keeps henv.advances
    have hrule : Parser.SameWithin n (rule.spend fuel env') (rule.eval spare env) :=
      ih h.1 henv hagree (by omega)
    have hsame := hrule.moving hadv
    have hpos := rule.height_pos
    intro c hc
    refine hsame.collect hadv hc (by omega) ?_
    rw [Cursor.turns]
    omega
  | many1 rule ih =>
    have hadv := h.2 spare env henv.keeps henv.advances
    have hrule : Parser.SameWithin n (rule.spend fuel env') (rule.eval spare env) :=
      ih h.1 henv hagree (by omega)
    have hsame := hrule.moving hadv
    have hpos := rule.height_pos
    intro c hc
    simp only [spend, eval, Parser.many1_eq_seq, Parser.seq, hsame c hc]
    refine Outcome.bind_congr fun v c' hok => congrArg (Outcome.map _) ?_
    have hlt := hadv c v c' hok
    refine hsame.collect hadv (by omega) (by omega) ?_
    rw [Cursor.turns]
    omega
  | sepBy item delimiter ih ih' =>
    obtain ⟨hitem, hdelimiter, hadv⟩ := h
    have hadv' := hadv spare env henv.keeps henv.advances
    have hfwd := forward.keeps_eval spare item env henv.keeps
    have hfwd' := forward.keeps_eval spare delimiter env henv.keeps
    have hsame : Parser.SameWithin n (item.spend fuel env') (item.eval spare env) :=
      ih hitem henv hagree (by omega)
    have hpos := item.height_pos
    intro c hc
    simp only [spend, eval, Parser.sepBy_eq, hsame c hc]
    refine Outcome.handle_congr (fun v c' hok => congrArg (Outcome.map _) ?_) fun _ _ _ => rfl
    have hle := (Parser.ahead_of_ok hfwd hok).remaining_le
    have hbehind : Parser.SameWithin c'.remaining (delimiter.spend fuel env')
        (delimiter.eval spare env) :=
      sameBehind henv hagree (fun m hm hb ha => ih' hdelimiter hb ha (by omega)) c v c' hc hok
    have hnext := (hbehind.seq ((hsame.mono (by omega)).behind hfwd')).map Prod.snd
    have hadvNext : (Parser.map Prod.snd (Parser.seq (delimiter.eval spare env)
        (item.eval spare env))).Advances := by
      intro d w d' hd
      obtain ⟨w', d'', hw, hd''⟩ := Outcome.bind_eq_ok.mp hd
      cases hd''
      exact hadv' d w' _ hw
    refine (hnext.moving hadvNext).collect hadvNext (Nat.le_refl _) (by omega) ?_
    rw [Cursor.turns]
    omega
  | optional rule ih => exact (ih h henv hagree (by omega)).optional
  | commit rule ih => exact (ih h henv hagree (by omega)).commit
  | toEnd rule ih => exact (ih h henv hagree (by omega)).toEnd
  | orGroup operand group ih ih' =>
    exact (ih h.1 henv hagree (by omega)).orGroup (ih' h.2 henv hagree (by omega))
      (forward.keeps_eval spare operand env henv.keeps)
  | chain level operand tail ih ih' =>
    obtain ⟨hoperand, htail, hadv⟩ := h
    have hadv' := hadv spare env henv.keeps henv.advances
    have hsame : Parser.SameWithin n (operand.spend fuel env') (operand.eval spare env) :=
      ih hoperand henv hagree (by omega)
    have hpos := operand.height_pos
    intro c hc
    simp only [spend, eval, Parser.chain, hsame c hc]
    refine Outcome.bind_congr fun tree c' hok => ?_
    have hfwd := forward.keeps_eval spare operand env henv.keeps
    have hle := (Parser.ahead_of_ok hfwd hok).remaining_le
    have hbehind : Parser.SameWithin c'.remaining (tail.spend fuel env') (tail.eval spare env) :=
      sameBehind henv hagree (fun m hm hb ha => ih' htail hb ha (by omega)) c tree c' hc hok
    refine (hbehind.moving hadv').joinTails hadv' tree (Nat.le_refl _) (by omega) ?_
    rw [Cursor.turns]
    omega
  | fix body ih =>
    intro c hc
    refine spend_fix h henv hagree spare (fun h hb ha hfuel => ih h hb ha hfuel) hc ?_ ?_ c
      (Nat.le_refl _)
    · rw [Cursor.turns]
      omega
    · simp only [height]
      omega
  | share shared body ih ih' =>
    obtain ⟨hshared, hbody⟩ := h
    refine ih' hbody (henv.cons (forward.keeps_eval spare shared env henv.keeps) ?_ ?_ ?_)
      (hagree.cons ?_ ?_) (by omega)
    · exact fun hadv => hadv spare env henv.keeps henv.advances
    · exact fun hfree => hfree.haltsWithin henv spare
    · exact fun m hm => hshared.haltsWithin (henv.later (Nat.le_of_lt hm) fun _ => hm) spare
    · exact fun hfree => ih hfree henv hagree (by omega)
    · intro m hm
      exact ih hshared (henv.later (Nat.le_of_lt hm) fun _ => hm)
        (hagree.later (Nat.le_of_lt hm) fun _ => hm) (by omega)
  | ref x => exact hagree.within _ x h

/-! ## Unfolding -/

/-- A grounded rule looks at what is in scope only where fewer tokens are left, or where it
is free to. -/
theorem Grounded.eval_congr {rule : Rule Γ α} (h : rule.Grounded sure free)
    (henv : env.Bears sure free n) (henv' : env'.Bears sure free n)
    (hagree : env'.Agree env free n) (spare : Nat) :
    Parser.SameWithin n (rule.eval spare env') (rule.eval spare env) := by
  intro c hc
  have hspend := h.spend_eq_eval henv hagree (Nat.le_refl _) spare c hc
  have hspend' := h.spend_eq_eval henv' (.refl env' free n) (Nat.le_refl _) spare c hc
  exact hspend'.symm.trans hspend

/-- Turns that are enough for the tokens that are left do not differ from each other. -/
theorem sameWithin_iterate {body : Rule (α :: Γ) α} (h : (fix body).Grounded sure free)
    (henv : env.Bears sure free n) (spare : Nat) {turns m : Nat} (hm : m ≤ n)
    (hturns : m < turns) :
    Parser.SameWithin m (Parser.iterate (fun self => body.eval spare (.cons self env)) turns)
      ((fix body).eval spare env) := by
  intro c hc
  have hspend : ∀ turns, c.remaining < turns →
      (fix body).spend ((fix body).height + c.remaining) env c =
        Parser.iterate (fun self => body.eval spare (.cons self env)) turns c :=
    fun turns hturns => spend_fix h henv (.refl env free n) spare
      (fun h hb ha hfuel => h.spend_eq_eval hb ha hfuel spare) (by omega) hturns
      (Nat.le_refl _) c (Nat.le_refl _)
  have hgranted : c.remaining < c.turns spare := by
    rw [Cursor.turns]
    omega
  exact (hspend turns (by omega)).symm.trans (hspend _ hgranted)

/-- **A grounded recursive rule is its own unfolding.** -/
theorem Grounded.eval_fix {body : Rule (α :: Γ) α} (h : (fix body).Grounded sure free)
    (henv : env.Bears sure free n) (spare : Nat) :
    Parser.SameWithin n ((fix body).eval spare env)
      (body.eval spare (.cons ((fix body).eval spare env) env)) := by
  intro c hc
  have hbody : body.Grounded (sure.cons (body.Advances (sure.cons True))) (free.cons False) := h
  let turn := Parser.iterate (fun self => body.eval spare (.cons self env)) (c.remaining + spare)
  -- The recursive rule is entered with all turns but one, where fewer tokens are left.
  have hself : (Env.cons ((fix body).eval spare env) env).Bears
      (sure.cons (body.Advances (sure.cons True))) (free.cons False) c.remaining :=
    (henv.mono hc).cons (forward.keeps_eval spare _ env henv.keeps)
      (fun hadv d => advances_iterate hadv henv spare (d.turns spare) d) nofun
      fun k hk => h.haltsWithin (henv.mono (by omega)) spare
  have hturn : (Env.cons turn env).Bears
      (sure.cons (body.Advances (sure.cons True))) (free.cons False) c.remaining :=
    (henv.mono hc).cons (keeps_iterate body henv spare _)
      (fun hadv => advances_iterate hadv henv spare _) nofun
      fun k hk => haltsWithin_iterate h henv spare (by omega) (by omega)
  have hagree : (Env.cons turn env).Agree (.cons ((fix body).eval spare env) env)
      (free.cons False) c.remaining :=
    (Env.Agree.refl env free c.remaining).cons nofun
      fun k hk => sameWithin_iterate h henv spare (by omega) (by omega)
  have hunfold : (fix body).eval spare env c = body.eval spare (.cons turn env) c := by
    show Parser.iterate _ (c.turns spare) c = _
    rw [Cursor.turns, Nat.add_right_comm]
    rfl
  rw [hunfold]
  exact hbody.eval_congr hself hturn hagree spare c (Nat.le_refl _)

end Rule

end Fixity
