import Fixity.Proofs.RunLaws

/-! # Runs that end

Loops and recursive rules end for two reasons.  What a loop repeats reads a token whenever
it gives a value (`Rule.Advances`), and a recursive rule enters itself only behind a token.
A rule of which both hold, in all its parts, is **productive** (`Rule.Productive`), and its
runs end (`Rule.Productive.run_ne_stalled`).

What a part of a rule does depends on the rules in scope.  Two marks on them carry the
argument (`Rule.Grounded`): which of them are `sure` to read a token when they give a value,
and which are `free` to be entered before a token has been read.  A recursive rule is not
free in its own body, until something that reads a token has been passed.
-/
namespace Fixity

/-! ## Going forward -/

/-- A cursor over the same tokens that does not stand further back. -/
structure Cursor.Ahead (c c' : Cursor) : Prop where
  tokens : c'.tokens = c.tokens
  position_le : c.position ≤ c'.position

namespace Cursor
variable {c c' c'' : Cursor}

theorem Ahead.refl (c : Cursor) : c.Ahead c := ⟨rfl, Nat.le_refl _⟩

theorem Ahead.trans (h : c.Ahead c') (h' : c'.Ahead c'') : c.Ahead c'' :=
  ⟨h'.tokens.trans h.tokens, Nat.le_trans h.position_le h'.position_le⟩

/-- The cursor is moved back to where the run started. -/
theorem Ahead.restore (h : c.Ahead c') : c.Ahead (c'.restore c.position) :=
  ⟨h.tokens, Nat.le_refl _⟩

theorem Ahead.remaining_le (h : c.Ahead c') : c'.remaining ≤ c.remaining := by
  unfold remaining
  rw [h.tokens]
  exact Nat.sub_le_sub_left h.position_le _

theorem ahead_advance (hnext : c.hasNext = true) : c.Ahead c.advance := by
  rw [advance, if_pos hnext]
  exact ⟨rfl, Nat.le_succ _⟩

theorem remaining_advance_lt (hnext : c.hasNext = true) : c.advance.remaining < c.remaining := by
  have hlt : c.position < c.tokens.length := of_decide_eq_true hnext
  rw [advance, if_pos hnext]
  exact Nat.sub_succ_lt_self _ _ hlt

end Cursor

/-- **The law that runs go forward.** -/
def forward : RunLaw where
  start _ := True
  moves := Cursor.Ahead
  fails c _ c' := c.Ahead c'
  refl _ := .refl _
  trans := .trans
  rebase := .trans
  start_of_moves _ := trivial
  advance _ hnext := Cursor.ahead_advance hnext
  giveUp _ h := h.restore
  rescue _ h := h.restore
  unmet _ _ := .refl _
  again _ _ := .refl _
  remember h := ⟨h.tokens, h.position_le⟩
  merge _ _ h := h.restore
  named _ h := h
  asTrailing h := h
  toFatal h := h
  rememberFatal h := ⟨h.tokens, h.position_le⟩

namespace Parser
variable {α β : Type} {p q : Parser α} {c c' : Cursor} {n : Nat}

theorem ahead_of_ok (hp : forward.Keeps p) {v : α} (h : p c = .ok v c') : c.Ahead c' := by
  have hkept := hp c trivial
  rw [h] at hkept
  cases hkept with
  | ok h => exact h

theorem ahead_of_fail (hp : forward.Keeps p) {f : Failure} (h : p c = .fail f c') :
    c.Ahead c' := by
  have hkept := hp c trivial
  rw [h] at hkept
  cases hkept with
  | fail h => exact h

/-! ## Parsers that end -/

/-- **A parser that reads a token whenever it gives a value.** -/
def Advances (p : Parser α) : Prop := ∀ c v c', p c = .ok v c' → c'.remaining < c.remaining

/-- **A parser whose runs end**, wherever at most so many tokens are left. -/
def HaltsWithin (n : Nat) (p : Parser α) : Prop := ∀ c, c.remaining ≤ n → p c ≠ .stalled

/-- A parser whose runs end behind the values of another one. -/
def HaltsBehind (n : Nat) (p : Parser α) (q : Parser β) : Prop :=
  ∀ c v c', c.remaining ≤ n → p c = .ok v c' → HaltsWithin c'.remaining q

theorem advances_token (decode : Token → Option α) (expected : String) :
    (token decode expected).Advances := by
  intro c v c' h
  rw [token] at h
  split at h
  · rename_i hv
    obtain ⟨t, ht, -⟩ := Option.bind_eq_some_iff.mp hv
    cases h
    exact Cursor.remaining_advance_lt (c.hasNext_iff_peek?.mpr ⟨t, ht⟩)
  · cases h

theorem HaltsWithin.mono {m : Nat} (h : HaltsWithin n p) (hm : m ≤ n) : HaltsWithin m p :=
  fun c hc => h c (Nat.le_trans hc hm)

theorem HaltsWithin.behind {q : Parser β} (hq : HaltsWithin n q) (hp : forward.Keeps p) :
    HaltsBehind n p q :=
  fun _ _ _ hc h => hq.mono (Nat.le_trans (ahead_of_ok hp h).remaining_le hc)

end Parser

theorem Outcome.handle_ne_stalled {α β : Type} {o : Outcome α} {next : α → Cursor → Outcome β}
    {rescue : Failure → Cursor → Outcome β} (ho : o ≠ .stalled)
    (hnext : ∀ v c, o = .ok v c → next v c ≠ .stalled)
    (hrescue : ∀ f c, o = .fail f c → rescue f c ≠ .stalled) :
    o.handle next rescue ≠ .stalled := by
  cases o with
  | ok v c => exact hnext v c rfl
  | fail f c =>
    rw [handle]
    split
    · intro h
      cases h
    · exact hrescue f c rfl
  | stalled => exact absurd rfl ho

theorem Outcome.bind_ne_stalled {α β : Type} {o : Outcome α} {next : α → Cursor → Outcome β}
    (ho : o ≠ .stalled) (hnext : ∀ v c, o = .ok v c → next v c ≠ .stalled) :
    o.bind next ≠ .stalled := by
  rw [bind_eq_handle]
  exact handle_ne_stalled ho hnext fun _ _ _ => nofun

theorem Outcome.recover_ne_stalled {α : Type} {o : Outcome α}
    {next : Failure → Cursor → Outcome α} (ho : o ≠ .stalled)
    (hnext : ∀ f c, o = .fail f c → next f c ≠ .stalled) : o.recover next ≠ .stalled := by
  rw [recover_eq_handle]
  exact handle_ne_stalled ho (fun _ _ _ => nofun) hnext

theorem Outcome.map_ne_stalled {α β : Type} {o : Outcome α} (f : α → β) (ho : o ≠ .stalled) :
    o.map f ≠ .stalled :=
  bind_ne_stalled ho fun _ _ _ => nofun

namespace Parser.HaltsWithin
variable {α β : Type} {p q : Parser α} {n : Nat}

open Outcome

theorem token (decode : Token → Option α) (expected : String) :
    HaltsWithin n (Parser.token decode expected) := by
  intro c _
  unfold Parser.token
  split <;> exact nofun

theorem atEnd : HaltsWithin n Parser.atEnd := by
  intro c _
  unfold Parser.atEnd
  split <;> exact nofun

theorem map (hp : HaltsWithin n p) (f : α → β) : HaltsWithin n (Parser.map f p) :=
  fun c hc => map_ne_stalled f (hp c hc)

theorem filter (hp : HaltsWithin n p) (accepts : α → Bool) (expected : String) :
    HaltsWithin n (Parser.filter accepts expected p) := by
  refine fun c hc => bind_ne_stalled (hp c hc) fun v c' _ => ?_
  split <;> exact nofun

theorem seq {q : Parser β} (hp : HaltsWithin n p) (hq : HaltsBehind n p q) :
    HaltsWithin n (Parser.seq p q) := by
  refine fun c hc => bind_ne_stalled (hp c hc) fun v c' h => map_ne_stalled _ ?_
  exact hq c v c' hc h c' (Nat.le_refl _)

theorem commit (hp : HaltsWithin n p) : HaltsWithin n (Parser.commit p) :=
  fun c hc => recover_ne_stalled (hp c hc) fun _ _ _ => nofun

theorem toEnd (hp : HaltsWithin n p) : HaltsWithin n (Parser.toEnd p) := by
  refine fun c hc => bind_ne_stalled (hp c hc) fun v c' _ => ?_
  split <;> exact nofun

theorem label (hp : HaltsWithin n p) (name : String) : HaltsWithin n (Parser.label name p) := by
  refine fun c hc => recover_ne_stalled (hp c hc) fun f c' _ => ?_
  split <;> exact nofun

theorem optional (hp : HaltsWithin n p) : HaltsWithin n (Parser.optional p) :=
  fun c hc => recover_ne_stalled (map_ne_stalled some (hp c hc)) fun _ _ _ => nofun

/-- Another parser, after the cursor has been moved back. -/
theorem again (hq : HaltsWithin n q) (hp : forward.Keeps p) {c c' : Cursor} {f : Failure}
    (hc : c.remaining ≤ n) (h : p c = .fail f c') : q (c'.restore c.position) ≠ .stalled :=
  hq _ (Nat.le_trans (ahead_of_fail hp h).restore.remaining_le hc)

theorem or (hp : HaltsWithin n p) (hq : HaltsWithin n q) (hfwd : forward.Keeps p) :
    HaltsWithin n (Parser.or p q) := by
  refine fun c hc => recover_ne_stalled (hp c hc) fun f c' h => ?_
  exact recover_ne_stalled (hq.again hfwd hc h) fun _ _ _ => nofun

theorem orGroup (hp : HaltsWithin n p) (hq : HaltsWithin n q) (hfwd : forward.Keeps p) :
    HaltsWithin n (Parser.orGroup p q) := by
  refine fun c hc => recover_ne_stalled (hp c hc) fun f c' h => ?_
  split
  · exact recover_ne_stalled (hq.again hfwd hc h) fun _ _ _ => nofun
  · exact nofun

theorem tryEach {ps : List (Parser α)} (hps : ∀ p ∈ ps, HaltsWithin n p)
    (hfwd : ∀ p ∈ ps, forward.Keeps p) (failure : Option Failure) {c : Cursor}
    (hc : c.remaining ≤ n) : Parser.tryEach c.position ps failure c ≠ .stalled := by
  induction ps generalizing c failure with
  | nil => exact nofun
  | cons p ps ih =>
    obtain ⟨hp, hps⟩ := List.forall_mem_cons.mp hps
    obtain ⟨hfwdp, hfwds⟩ := List.forall_mem_cons.mp hfwd
    refine recover_ne_stalled (hp c hc) fun f c' h => ?_
    have hback := (ahead_of_fail hfwdp h).restore.remaining_le
    exact ih hps hfwds _ (c := c'.restore c.position) (Nat.le_trans hback hc)

theorem firstOf {ps : List (Parser α)} (hps : ∀ p ∈ ps, HaltsWithin n p)
    (hfwd : ∀ p ∈ ps, forward.Keeps p) : HaltsWithin n (Parser.firstOf ps) :=
  fun _ hc => tryEach hps hfwd none hc

/-- Parsers in order.  Each of them ends behind those before it. -/
theorem sequence {m : Nat} {ps : Fin m → Parser α} (hfwd : ∀ i, forward.Keeps (ps i))
    (hps : ∀ i k, k ≤ n → ((∃ j < i, (ps j).Advances) → k < n) → HaltsWithin k (ps i)) :
    HaltsWithin n (Parser.sequence (List.ofFn ps)) := by
  induction m generalizing n with
  | zero => exact fun c _ => nofun
  | succ m ih =>
    rw [List.ofFn_succ]
    have hfirst : HaltsWithin n (ps 0) := by
      refine hps 0 n (Nat.le_refl n) ?_
      rintro ⟨j, hj, -⟩
      exact absurd hj (Nat.not_lt_zero _)
    refine fun c hc => bind_ne_stalled (hfirst c hc) fun v c' h => map_ne_stalled _ ?_
    have hle := (ahead_of_ok (hfwd 0) h).remaining_le
    refine ih (fun i => hfwd i.succ) (fun i k hk hlt => ?_) c' (Nat.le_refl _)
    refine hps i.succ k (by omega) ?_
    -- The first parser has read a token, or one of the others does.
    rintro ⟨j, hj, hadv⟩
    cases j using Fin.cases with
    | zero =>
      have := hadv c v c' h
      omega
    | succ j =>
      have := hlt ⟨j, Fin.succ_lt_succ_iff.mp hj, hadv⟩
      omega

theorem collect (hp : HaltsWithin n p) (hadv : p.Advances) {turns : Nat} {c : Cursor}
    (hc : c.remaining ≤ n) (hturns : c.remaining < turns) :
    Parser.collect p turns c ≠ .stalled := by
  induction turns generalizing c with
  | zero => exact absurd hturns (Nat.not_lt_zero _)
  | succ turns ih =>
    rw [Parser.collect_succ]
    refine handle_ne_stalled (hp c hc) (fun v c' h => map_ne_stalled _ ?_) fun _ _ _ => nofun
    have hlt := hadv c v c' h
    exact ih (by omega) (by omega)

theorem many (hp : HaltsWithin n p) (hadv : p.Advances) (spare : Nat) :
    HaltsWithin n (Parser.many spare p) := by
  refine fun c hc => hp.collect hadv hc ?_
  rw [Cursor.turns]
  omega

theorem many1 (hp : HaltsWithin n p) (hadv : p.Advances) (spare : Nat) :
    HaltsWithin n (Parser.many1 spare p) := by
  rw [Parser.many1_eq_seq]
  refine fun c hc => bind_ne_stalled (hp c hc) fun v c' h => map_ne_stalled _ ?_
  have hlt := hadv c v c' h
  exact hp.many hadv spare c' (by omega)

theorem sepBy {delimiter : Parser β} (hp : HaltsWithin n p)
    (hd : HaltsBehind n p delimiter) (hfwd : forward.Keeps p) (hfwd' : forward.Keeps delimiter)
    (hadv : (Parser.seq delimiter p).Advances) (spare : Nat) :
    HaltsWithin n (Parser.sepBy spare p delimiter) := by
  intro c hc
  rw [Parser.sepBy_eq]
  refine handle_ne_stalled (hp c hc) (fun v c' h => map_ne_stalled _ ?_) fun _ _ _ => nofun
  have hle := (ahead_of_ok hfwd h).remaining_le
  have hitem : HaltsWithin c'.remaining p := hp.mono (by omega)
  have hnext := (hd c v c' hc h).seq (hitem.behind hfwd')
  refine (hnext.map Prod.snd).many (fun d w d' h => ?_) spare c' (Nat.le_refl _)
  obtain ⟨w', d'', hw, hd''⟩ := bind_eq_ok.mp h
  cases hd''
  exact hadv d w' _ hw

theorem joinTails {tail : Parser (Tail α)} (ht : HaltsWithin n tail) (hadv : tail.Advances)
    {turns : Nat} (tree : Tree α) {c : Cursor} (hc : c.remaining ≤ n)
    (hturns : c.remaining < turns) : Parser.joinTails tail turns tree c ≠ .stalled := by
  induction turns generalizing c tree with
  | zero => exact absurd hturns (Nat.not_lt_zero _)
  | succ turns ih =>
    rw [Parser.joinTails_succ]
    refine handle_ne_stalled (ht c hc) (fun t c' h => ?_) fun _ _ _ => nofun
    have hlt := hadv c t c' h
    cases t with
    | more op right => exact ih _ (by omega) (by omega)
    | last op right => exact nofun

theorem chain {operand : Parser (Tree α)} {tail : Parser (Tail α)} (ho : HaltsWithin n operand)
    (ht : HaltsBehind n operand tail) (hadv : tail.Advances) (spare : Nat) :
    HaltsWithin n (Parser.chain spare operand tail) := by
  refine fun c hc => bind_ne_stalled (ho c hc) fun tree c' h => ?_
  refine (ht c tree c' hc h).joinTails hadv tree (Nat.le_refl _) ?_
  rw [Cursor.turns]
  omega

/-- A recursive parser whose body ends if, where fewer tokens are left, the recursive runs
end. -/
theorem fix {body : Parser α → Parser α} {spare : Nat}
    (hbody : ∀ m ≤ n, ∀ turns, (∀ k < m, HaltsWithin k (iterate body turns)) →
      HaltsWithin m (body (iterate body turns))) :
    HaltsWithin n (Parser.fix spare body) := by
  have hturns : ∀ turns, ∀ m ≤ n, m < turns → HaltsWithin m (iterate body turns) := by
    intro turns
    induction turns with
    | zero => exact fun _ _ h => absurd h (Nat.not_lt_zero _)
    | succ turns ih =>
      intro m hm hlt
      exact hbody m hm turns fun k hk => ih k (by omega) (by omega)
  refine fun c hc => hturns _ c.remaining hc ?_ c (Nat.le_refl _)
  rw [Cursor.turns]
  omega

end Parser.HaltsWithin

/-! ## Marks on the rules in scope -/

/-- A mark on some of the rules in scope. -/
abbrev Marks (Γ : List Type) := ∀ β : Type, Var Γ β → Prop

namespace Marks
variable {Γ : List Type} {γ : Type}

/-- Marks for a scope with one more rule. -/
def cons (here : Prop) (marks : Marks Γ) : Marks (γ :: Γ)
  | _, .here => here
  | _, .there x => marks _ x

/-- Every rule is marked if something holds. -/
def orIf (marks : Marks Γ) (h : Prop) : Marks Γ := fun β x => marks β x ∨ h

end Marks

/-- **Parsers that bear out the marks**, wherever at most so many tokens are left. -/
structure Env.Bears {Γ : List Type} (env : Env Γ) (sure free : Marks Γ) (n : Nat) : Prop where
  keeps : ∀ β (x : Var Γ β), forward.Keeps (env.get x)
  advances : ∀ β (x : Var Γ β), sure β x → (env.get x).Advances
  halts : ∀ β (x : Var Γ β), free β x → (env.get x).HaltsWithin n
  haltsBelow : ∀ β (x : Var Γ β), ∀ m < n, (env.get x).HaltsWithin m

namespace Env.Bears
variable {Γ : List Type} {γ : Type} {env : Env Γ} {sure free : Marks Γ} {n m : Nat}

/-- Where fewer tokens are left, every rule is free. -/
theorem later {h : Prop} (henv : env.Bears sure free n) (hm : m ≤ n) (hlt : h → m < n) :
    env.Bears sure (free.orIf h) m where
  keeps := henv.keeps
  advances := henv.advances
  halts β x hx := by
    rcases hx with hx | hx
    · exact (henv.halts β x hx).mono hm
    · exact henv.haltsBelow β x m (hlt hx)
  haltsBelow β x k hk := henv.haltsBelow β x k (by omega)

theorem mono (henv : env.Bears sure free n) (hm : m ≤ n) : env.Bears sure free m where
  keeps := henv.keeps
  advances := henv.advances
  halts β x hx := (henv.halts β x hx).mono hm
  haltsBelow β x k hk := henv.haltsBelow β x k (by omega)

theorem cons {p : Parser γ} {hereSure hereFree : Prop} (henv : env.Bears sure free n)
    (hkeeps : forward.Keeps p) (hadv : hereSure → p.Advances)
    (hhalts : hereFree → p.HaltsWithin n) (hbelow : ∀ m < n, p.HaltsWithin m) :
    (Env.cons p env).Bears (sure.cons hereSure) (free.cons hereFree) n where
  keeps β x := by
    cases x with
    | here => exact hkeeps
    | there x => exact henv.keeps β x
  advances β x hx := by
    cases x with
    | here => exact hadv hx
    | there x => exact henv.advances β x hx
  halts β x hx := by
    cases x with
    | here => exact hhalts hx
    | there x => exact henv.halts β x hx
  haltsBelow β x := by
    cases x with
    | here => exact hbelow
    | there x => exact henv.haltsBelow β x

/-- Nothing is in scope. -/
theorem nil {sure free : Marks []} {n : Nat} : Env.nil.Bears sure free n := by
  constructor
  all_goals
    intro β x
    cases x

end Env.Bears

namespace Rule
variable {Γ : List Type} {α β : Type}

/-! ## Rules that end -/

/-- **A rule that reads a token whenever it gives a value**, if the rules in scope that are
marked do. -/
def Advances (rule : Rule Γ α) (sure : Marks Γ) : Prop :=
  ∀ (spare : Nat) (env : Env Γ), (∀ β (x : Var Γ β), forward.Keeps (env.get x)) →
    (∀ β (x : Var Γ β), sure β x → (env.get x).Advances) → (rule.eval spare env).Advances

theorem advances_token (decode : Token → Option α) (expected : String) (sure : Marks Γ) :
    (token decode expected).Advances sure :=
  fun _ _ _ _ => Parser.advances_token decode expected

/-- It is enough that the first of two rules reads a token. -/
theorem Advances.seq {first : Rule Γ α} {sure : Marks Γ} (h : first.Advances sure)
    (second : Rule Γ β) : (first.seq second).Advances sure := by
  intro spare env hkeeps hadv c v c' hok
  obtain ⟨w, d, hfirst, hrest⟩ := Outcome.bind_eq_ok.mp hok
  obtain ⟨w', d', hsecond, hd⟩ := Outcome.bind_eq_ok.mp hrest
  cases hd
  have hahead := Parser.ahead_of_ok (forward.keeps_eval spare second env hkeeps) hsecond
  exact Nat.lt_of_le_of_lt hahead.remaining_le (h spare env hkeeps hadv c w d hfirst)

/-- **A rule that repeats only what reads a token, and enters only what is free** before it
has read one. -/
def Grounded {Γ : List Type} {α : Type} : Rule Γ α → Marks Γ → Marks Γ → Prop
  | token _ _, _, _ => True
  | atEnd, _, _ => True
  | dangling, _, _ => True
  | seq first second, sure, free =>
    first.Grounded sure free ∧ second.Grounded sure (free.orIf (first.Advances sure))
  | map _ rule, sure, free => rule.Grounded sure free
  | or first second, sure, free => first.Grounded sure free ∧ second.Grounded sure free
  | filter _ _ rule, sure, free => rule.Grounded sure free
  | label _ rule, sure, free => rule.Grounded sure free
  | firstOf rules, sure, free => ∀ i, (rules i).Grounded sure free
  | sequence rules, sure, free =>
    ∀ i, (rules i).Grounded sure (free.orIf (∃ j < i, (rules j).Advances sure))
  | many rule, sure, free => rule.Grounded sure free ∧ rule.Advances sure
  | many1 rule, sure, free => rule.Grounded sure free ∧ rule.Advances sure
  | sepBy item delimiter, sure, free =>
    item.Grounded sure free ∧ delimiter.Grounded sure (free.orIf (item.Advances sure)) ∧
      (delimiter.seq item).Advances sure
  | optional rule, sure, free => rule.Grounded sure free
  | commit rule, sure, free => rule.Grounded sure free
  | toEnd rule, sure, free => rule.Grounded sure free
  | orGroup operand group, sure, free => operand.Grounded sure free ∧ group.Grounded sure free
  | chain _ operand tail, sure, free =>
    operand.Grounded sure free ∧ tail.Grounded sure (free.orIf (operand.Advances sure)) ∧
      tail.Advances sure
  -- The rule itself is sure if its body is, where it is taken to be.
  | fix body, sure, free =>
    body.Grounded (sure.cons (body.Advances (sure.cons True))) (free.cons False)
  | share shared body, sure, free =>
    shared.Grounded sure (free.orIf True) ∧
      body.Grounded (sure.cons (shared.Advances sure)) (free.cons (shared.Grounded sure free))
  | ref x, _, free => free _ x

/-- **A rule without repetitions of what reads nothing, and without left recursion.** -/
def Productive (rule : Rule [] α) : Prop := rule.Grounded (fun _ => nofun) (fun _ => nofun)

variable {env : Env Γ} {sure free : Marks Γ} {n : Nat}

/-- Behind a rule that reads a token, every rule is free. -/
theorem haltsBehind {first : Rule Γ α} {second : Rule Γ β} {spare : Nat}
    (henv : env.Bears sure free n)
    (h : ∀ m, env.Bears sure (free.orIf (first.Advances sure)) m →
      (second.eval spare env).HaltsWithin m) :
    Parser.HaltsBehind n (first.eval spare env) (second.eval spare env) := by
  intro c v c' hc hok
  have hahead := Parser.ahead_of_ok (forward.keeps_eval spare first env henv.keeps) hok
  refine h _ (henv.later (Nat.le_trans hahead.remaining_le hc) fun hadv => ?_)
  have hlt := hadv spare env henv.keeps henv.advances c v c' hok
  omega

/-- The turns of a recursive rule go forward. -/
theorem keeps_iterate (body : Rule (α :: Γ) α) (henv : env.Bears sure free n)
    (spare turns : Nat) :
    forward.Keeps (Parser.iterate (fun self => body.eval spare (.cons self env)) turns) := by
  refine .iterate (fun self hself => forward.keeps_eval spare body _ fun β x => ?_) turns
  cases x with
  | here => exact hself
  | there x => exact henv.keeps β x

/-- The turns of a recursive rule read a token if its body does so whenever they do. -/
theorem advances_iterate {body : Rule (α :: Γ) α} (hbody : body.Advances (sure.cons True))
    (henv : env.Bears sure free n) (spare turns : Nat) :
    (Parser.iterate (fun self => body.eval spare (.cons self env)) turns).Advances := by
  induction turns with
  | zero => exact fun _ _ _ => nofun
  | succ turns ih =>
    refine hbody spare _ (fun β x => ?_) fun β x hx => ?_
    · cases x with
      | here => exact keeps_iterate body henv spare turns
      | there x => exact henv.keeps β x
    · cases x with
      | here => exact ih
      | there x => exact henv.advances β x hx

/-- **The runs of a grounded rule end**, if the rules in scope bear out the marks. -/
theorem Grounded.haltsWithin {rule : Rule Γ α} (h : rule.Grounded sure free)
    (henv : env.Bears sure free n) (spare : Nat) : (rule.eval spare env).HaltsWithin n := by
  induction rule generalizing n with
  | token decode expected => exact .token decode expected
  | atEnd => exact .atEnd
  | dangling => exact fun _ _ => nofun
  | seq first second ih ih' =>
    exact (ih h.1 henv).seq (haltsBehind henv fun m hm => ih' h.2 hm)
  | map f rule ih => exact (ih h henv).map f
  | or first second ih ih' =>
    exact (ih h.1 henv).or (ih' h.2 henv) (forward.keeps_eval spare first env henv.keeps)
  | filter accepts expected rule ih => exact (ih h henv).filter accepts expected
  | label name rule ih => exact (ih h henv).label name
  | firstOf rules ih =>
    refine .firstOf ?_ ?_
    · simp only [List.mem_ofFn, forall_exists_index]
      rintro _ i rfl
      exact ih i (h i) henv
    · simp only [List.mem_ofFn, forall_exists_index]
      rintro _ i rfl
      exact forward.keeps_eval spare (rules i) env henv.keeps
  | sequence rules ih =>
    refine .sequence (fun i => forward.keeps_eval spare (rules i) env henv.keeps) ?_
    refine fun i k hk hlt => ih i (h i) (henv.later hk ?_)
    rintro ⟨j, hj, hadv⟩
    exact hlt ⟨j, hj, hadv spare env henv.keeps henv.advances⟩
  | many rule ih =>
    exact (ih h.1 henv).many (h.2 spare env henv.keeps henv.advances) spare
  | many1 rule ih =>
    exact (ih h.1 henv).many1 (h.2 spare env henv.keeps henv.advances) spare
  | sepBy item delimiter ih ih' =>
    obtain ⟨hitem, hdelimiter, hadv⟩ := h
    exact (ih hitem henv).sepBy (haltsBehind henv fun m hm => ih' hdelimiter hm)
      (forward.keeps_eval spare item env henv.keeps)
      (forward.keeps_eval spare delimiter env henv.keeps)
      (hadv spare env henv.keeps henv.advances) spare
  | optional rule ih => exact (ih h henv).optional
  | commit rule ih => exact (ih h henv).commit
  | toEnd rule ih => exact (ih h henv).toEnd
  | orGroup operand group ih ih' =>
    exact (ih h.1 henv).orGroup (ih' h.2 henv) (forward.keeps_eval spare operand env henv.keeps)
  | chain level operand tail ih ih' =>
    obtain ⟨hoperand, htail, hadv⟩ := h
    exact (ih hoperand henv).chain (haltsBehind henv fun m hm => ih' htail hm)
      (hadv spare env henv.keeps henv.advances) spare
  | fix body ih =>
    refine .fix fun m hm turns hbelow => ih h ?_
    exact (henv.mono hm).cons (keeps_iterate body henv spare turns)
      (fun hadv => advances_iterate hadv henv spare turns) nofun hbelow
  | share shared body ih ih' =>
    obtain ⟨hshared, hbody⟩ := h
    refine ih' hbody (henv.cons (forward.keeps_eval spare shared env henv.keeps) ?_ ?_ ?_)
    · exact fun hadv => hadv spare env henv.keeps henv.advances
    · exact fun hfree => ih hfree henv
    · exact fun m hm => ih hshared (henv.later (Nat.le_of_lt hm) fun _ => hm)
  | ref x => exact henv.halts _ x h

/-- **The runs of a productive rule end.** -/
theorem Productive.run_ne_stalled {rule : Rule [] α} (h : rule.Productive) (c : Cursor) :
    rule.run c ≠ .stalled :=
  h.haltsWithin (n := c.remaining) .nil 0 c (Nat.le_refl _)

end Rule

end Fixity
