import Fixity.Rule
import Fixity.Proofs.Steps

/-! # The trace of a run

A run of a parser looks at tokens, and what it looked at can be told from where it
stopped and from the record: it has moved past a token, or a failure at that token has
been remembered.  `Cursor.explored` counts the tokens up to the furthest of these
failures.

A parser **tracks** its run (`Parser.Tracks`) when a value lies ahead of where the run
started, a failure lies there too and is in the record, and the record never shrinks.
There is one lemma for each way of building parsers.  They give all rules that are
`Rule.Traced`: those that do not ask for the end of the input, that check the value of
nothing but a single token, and that commit themselves only right behind certain tokens.
-/
namespace Fixity

/-! ## How far failures have looked -/

namespace Cursor
variable (c : Cursor)

/-- **The number of tokens that failures have looked at**, up to the furthest one. -/
def explored : Nat :=
  match c.furthest with
  | some f => f.position + 1
  | none => 0

@[simp] theorem explored_restore (p : Nat) : (c.restore p).explored = c.explored := rfl

@[simp] theorem explored_advance : c.advance.explored = c.explored := by
  rw [explored, explored, furthest_advance]

@[simp] theorem explored_remember (f : Failure) :
    (c.remember f).explored = max c.explored (f.position + 1) := by
  unfold explored remember
  cases c.furthest with
  | none => simp
  | some previous =>
    have hpos := Failure.position_merge previous f
    simp only
    omega

@[simp] theorem tokens_advance : c.advance.tokens = c.tokens := by
  unfold advance
  split <;> rfl

theorem position_le_advance : c.position ≤ c.advance.position := by
  unfold advance
  split
  · exact Nat.le_succ _
  · exact Nat.le_refl _

end Cursor

/-- A run from the start of an input has looked no further than behind what was seen. -/
theorem Recorded.explored_le {all rest ts : List Token} {seen : List Token → Prop} {c : Cursor}
    {n : Nat} (h : Recorded all rest seen (.start ts) c)
    (hn : ∀ us q, Behind all rest us q → seen us → q ≤ n) : c.explored ≤ n + 1 := by
  unfold Cursor.explored
  split
  · rename_i f hf
    rcases h f hf with ⟨g, hg, -⟩ | ⟨us, hbehind, hseen⟩
    · cases hg
    · exact Nat.succ_le_succ (hn us f.position hbehind hseen)
  · exact Nat.zero_le _

theorem Failure.position_toError (f : Failure) : f.toError.position = f.position := by
  unfold Failure.toError
  split <;> rfl

/-- **Where an error lies**: a fatal failure is reported where it is, and any other at the
furthest token that was looked at, unless it lies behind that token itself. -/
theorem Cursor.position_errorFor (c : Cursor) (f : Failure) :
    (c.errorFor f).position =
      if f.isFatal = true then f.position else max f.position (c.explored - 1) := by
  unfold Cursor.errorFor Cursor.explored
  split
  · exact f.position_toError
  · cases c.furthest with
    | none =>
      simp only [Failure.position_toError]
      omega
    | some g =>
      simp only
      split
      · rename_i h
        rw [Failure.position_toError]
        have hpos := h.2
        simp only
        omega
      split
      · rw [Failure.position_toError]
        simp only
        omega
      · rw [Failure.position_toError]
        omega

/-- **Where the error of a run is reported**, if there is one: a value that leaves tokens
unread gives an error too. -/
def Outcome.reported {α : Type} : Outcome α → Nat
  | ok _ c => max c.position (c.explored - 1)
  | fail f c => if f.isFatal = true then f.position else max f.position (c.explored - 1)
  | stalled => 0

theorem Parser.position_toEnd {α : Type} {p : Parser α} {c : Cursor} {e : ParseError}
    (h : (Parser.toEnd p c).result = .error e) : e.position = (p c).reported := by
  unfold Parser.toEnd at h
  cases hp : p c with
  | ok v c' =>
    rw [hp, Outcome.bind_ok] at h
    split at h
    · cases h
      have hsoft : ¬ (c'.unmet "end of input").asTrailing.isFatal = true :=
        Bool.eq_false_iff.mp (c'.isFatal_unmet _)
      have hpos : (c'.unmet "end of input").asTrailing.position = c'.position :=
        c'.position_unmet _
      rw [Cursor.position_errorFor, if_neg hsoft, hpos]
      rfl
    · cases h
  | fail f c' =>
    rw [hp] at h
    cases h
    exact c'.position_errorFor f
  | stalled =>
    rw [hp] at h
    cases h
    rfl

/-! ## What a run leaves behind -/

/-- **What a run from `c` leaves behind.**  Only where `hard` holds are there fatal
failures. -/
inductive Trace {α : Type} (c : Cursor) (hard : Prop) : Outcome α → Prop where
  /-- A value lies ahead. -/
  | ok {v : α} {c' : Cursor} (htok : c'.tokens = c.tokens) (hpos : c.position ≤ c'.position)
      (hseen : c.explored ≤ c'.explored) : Trace c hard (.ok v c')
  /-- A failure lies ahead, and is in the record. -/
  | fail {f : Failure} {c' : Cursor} (htok : c'.tokens = c.tokens)
      (hpos : c.position ≤ f.position) (hrec : f.position < c'.explored)
      (hseen : c.explored ≤ c'.explored) (hhard : f.isFatal = true → hard) :
      Trace c hard (.fail f c')
  | stalled : Trace c hard .stalled

/-- **A parser tracks** its runs over the tokens `all`. -/
def Parser.Tracks {α : Type} (p : Parser α) (all : List Token) (hard : Prop) : Prop :=
  ∀ c, c.tokens = all → Trace c hard (p c)

namespace Trace
variable {α β : Type} {c c₁ : Cursor} {hard hard' : Prop} {o : Outcome α}

theorem mono (h : Trace c hard o) (hh : hard → hard') : Trace c hard' o := by
  cases h with
  | ok htok hpos hseen => exact .ok htok hpos hseen
  | fail htok hpos hrec hseen hhard => exact .fail htok hpos hrec hseen fun hf => hh (hhard hf)
  | stalled => exact .stalled

/-- A run may count as started earlier. -/
theorem rebase (h : Trace c₁ hard o) (htok : c₁.tokens = c.tokens)
    (hpos : c.position ≤ c₁.position) (hseen : c.explored ≤ c₁.explored) : Trace c hard o := by
  cases h with
  | ok htok' hpos' hseen' =>
    exact .ok (htok'.trans htok) (Nat.le_trans hpos hpos') (Nat.le_trans hseen hseen')
  | fail htok' hpos' hrec hseen' hhard =>
    exact .fail (htok'.trans htok) (Nat.le_trans hpos hpos') hrec (Nat.le_trans hseen hseen') hhard
  | stalled => exact .stalled

/-- A run and what goes on behind its value. -/
theorem bind {next : α → Cursor → Outcome β} (h : Trace c hard o)
    (hnext : ∀ v c', o = .ok v c' → c'.tokens = c.tokens → Trace c' hard (next v c')) :
    Trace c hard (o.bind next) := by
  cases h with
  | ok htok hpos hseen => exact (hnext _ _ rfl htok).rebase htok hpos hseen
  | fail htok hpos hrec hseen hhard => exact .fail htok hpos hrec hseen hhard
  | stalled => exact .stalled

theorem map {f : α → β} (h : Trace c hard o) : Trace c hard (o.map f) :=
  h.bind fun _ _ _ _ => .ok rfl (Nat.le_refl _) (Nat.le_refl _)

/-- A run and what is done after a recoverable failure. -/
theorem recover {next : Failure → Cursor → Outcome α} (h : Trace c hard o)
    (hnext : ∀ f c', f.isFatal = false → c'.tokens = c.tokens → c.position ≤ f.position →
      f.position < c'.explored → c.explored ≤ c'.explored → Trace c hard (next f c')) :
    Trace c hard (o.recover next) := by
  cases h with
  | ok htok hpos hseen => exact .ok htok hpos hseen
  | @fail f c' htok hpos hrec hseen hhard =>
    cases hf : f.isFatal with
    | true =>
      rw [Outcome.recover_fatal hf]
      exact .fail htok hpos hrec hseen hhard
    | false =>
      rw [Outcome.recover_recoverable hf]
      exact hnext f c' hf htok hpos hrec hseen
  | stalled => exact .stalled

/-- A recoverable failure. -/
theorem soft {f : Failure} {c' : Cursor} (hf : f.isFatal = false) (htok : c'.tokens = c.tokens)
    (hpos : c.position ≤ f.position) (hrec : f.position < c'.explored)
    (hseen : c.explored ≤ c'.explored) : Trace c hard (.fail f c' : Outcome α) := by
  refine .fail htok hpos hrec hseen fun h => ?_
  rw [hf] at h
  cases h

/-- A failure after which the run goes back and gives a value. -/
theorem give {f : Failure} {c' : Cursor} (h : Trace c hard (.fail f c' : Outcome α)) (v : β) :
    Trace c hard
      (if f.isFatal = true then .fail f c' else .ok v (c'.restore c.position)) := by
  cases h with
  | fail htok hpos hrec hseen hhard =>
    split
    · exact .fail htok hpos hrec hseen hhard
    · exact .ok htok (Nat.le_refl _) hseen

end Trace

namespace Parser.Tracks
variable {α β : Type} {p q : Parser α} {all : List Token} {hard : Prop}

theorem mono {hard' : Prop} (h : p.Tracks all hard) (hh : hard → hard') : p.Tracks all hard' :=
  fun c hc => (h c hc).mono hh

theorem tokens_of_ok (h : p.Tracks all hard) {c c' : Cursor} {v : α} (hc : c.tokens = all)
    (hv : p c = .ok v c') : c'.tokens = all := by
  have ht := h c hc
  rw [hv] at ht
  cases ht with
  | ok htok => exact htok.trans hc

/-- A run that is started again where it began. -/
theorem restored (h : p.Tracks all hard) {c c' : Cursor} (hc : c.tokens = all)
    (htok : c'.tokens = c.tokens) (hseen : c.explored ≤ c'.explored) :
    Trace c hard (p (c'.restore c.position)) :=
  (h (c'.restore c.position) (htok.trans hc)).rebase htok (Nat.le_refl _) hseen

/-! ## One token -/

theorem reject (expected : String) : (Parser.reject expected : Parser α).Tracks all hard := by
  intro c _
  have hpos := c.position_unmet expected
  refine .soft (c.isFatal_unmet expected) rfl (Nat.le_of_eq hpos.symm) ?_ ?_
  · rw [Cursor.explored_remember]
    omega
  · rw [Cursor.explored_remember]
    omega

theorem token (decode : Token → Option α) (expected : String) :
    (Parser.token decode expected).Tracks all hard := by
  intro c hc
  unfold Parser.token
  split
  · exact .ok c.tokens_advance c.position_le_advance (Nat.le_of_eq c.explored_advance.symm)
  · exact reject expected c hc

theorem filter {accepts : α → Bool} {label : String} (hp : p.Tracks all hard) :
    (Parser.filter accepts label p).Tracks all hard := by
  intro c hc
  show Trace c hard ((p c).bind _)
  cases h : p c with
  | ok v c' =>
    have hv := hp c hc
    rw [h] at hv
    cases hv with
    | ok htok hpos hseen =>
      rw [Outcome.bind_ok]
      split
      · exact .ok htok hpos hseen
      · exact (reject label).restored hc htok hseen
  | fail f c' =>
    rw [Outcome.bind_fail, ← h]
    exact h ▸ hp c hc
  | stalled => exact .stalled

/-! ## Sequences and values -/

theorem map {f : α → β} (hp : p.Tracks all hard) : (Parser.map f p).Tracks all hard :=
  fun c hc => (hp c hc).map

/-- The second parser counts only where the first gives a value. -/
theorem seq {q : Parser β} (hp : p.Tracks all hard)
    (hq : ∀ c v c', c.tokens = all → p c = .ok v c' → q.Tracks all hard) :
    (Parser.seq p q).Tracks all hard := by
  intro c hc
  refine (hp c hc).bind fun v c' hv htok => ?_
  exact (hq c v c' hc hv c' (htok.trans hc)).map

theorem sequence {ps : List (Parser α)} (hps : ∀ p ∈ ps, p.Tracks all hard) :
    (Parser.sequence ps).Tracks all hard := by
  induction ps with
  | nil => exact fun c _ => .ok rfl (Nat.le_refl _) (Nat.le_refl _)
  | cons p ps ih =>
    intro c hc
    refine (hps p List.mem_cons_self c hc).bind fun v c' _ htok => ?_
    exact (ih (fun p hp => hps p (List.mem_cons_of_mem _ hp)) c' (htok.trans hc)).map

theorem commit (hp : p.Tracks all hard) (hhard : hard) : (Parser.commit p).Tracks all hard := by
  intro c hc
  refine (hp c hc).recover fun f c' _ htok hpos hrec hseen => ?_
  exact .fail htok hpos hrec hseen fun _ => hhard

/-! ## Choices -/

/-- The second of two alternatives, after a failure of the first. -/
theorem second (hq : q.Tracks all hard) {c c' : Cursor} {f : Failure} (hc : c.tokens = all)
    (hf : f.isFatal = false) (htok : c'.tokens = c.tokens) (hpos : c.position ≤ f.position)
    (hrec : f.position < c'.explored) :
    Trace (c'.restore c.position) hard ((q (c'.restore c.position)).recover fun g c'' =>
      .fail (f.merge g) (c''.restore c.position)) := by
  refine (hq (c'.restore c.position) (htok.trans hc)).recover ?_
  intro g c'' hg htok' hpos' hrec' hseen
  have hmerge := f.position_merge g
  rw [Cursor.explored_restore] at hseen
  refine .soft (Failure.isFatal_merge hf hg) htok' ?_ ?_ hseen
  · show c.position ≤ (f.merge g).position
    omega
  · show (f.merge g).position < c''.explored
    omega

theorem or (hp : p.Tracks all hard) (hq : q.Tracks all hard) :
    (Parser.or p q).Tracks all hard := by
  intro c hc
  refine (hp c hc).recover fun f c' hf htok hpos hrec hseen => ?_
  exact (hq.second hc hf htok hpos hrec).rebase htok (Nat.le_refl _) hseen

theorem orGroup (hp : p.Tracks all hard) (hq : q.Tracks all hard) :
    (Parser.orGroup p q).Tracks all hard := by
  intro c hc
  refine (hp c hc).recover fun f c' hf htok hpos hrec hseen => ?_
  split
  · exact (hq.second hc hf htok hpos hrec).rebase htok (Nat.le_refl _) hseen
  · exact .soft hf htok hpos hrec hseen

theorem label (name : String) (hp : p.Tracks all hard) : (Parser.label name p).Tracks all hard := by
  intro c hc
  refine (hp c hc).recover fun f c' hf htok hpos hrec hseen => ?_
  split
  · refine .soft hf htok hpos ?_ ?_
    · rw [Cursor.explored_remember]
      omega
    · rw [Cursor.explored_remember]
      omega
  · exact .soft hf htok hpos hrec hseen

theorem optional (hp : p.Tracks all hard) : (Parser.optional p).Tracks all hard := by
  intro c hc
  refine (hp c hc).map.recover fun f c' _ htok _ _ hseen => ?_
  exact .ok htok (Nat.le_refl _) hseen

/-- The failure of some alternatives and of one more. -/
def carry : Option Failure → Failure → Failure
  | some f, g => f.merge g
  | none, g => g

theorem tryEach_cons (start : Nat) (p : Parser α) (ps : List (Parser α))
    (failure : Option Failure) (c : Cursor) :
    Parser.tryEach start (p :: ps) failure c = (p c).recover fun g c' =>
      Parser.tryEach start ps (some (carry failure g)) (c'.restore start) := by
  cases failure <;> rfl

/-- What alternatives that have failed carry on: a recoverable failure in the record. -/
def Carried (c : Cursor) (failure : Option Failure) : Prop :=
  ∀ f, failure = some f → f.isFatal = false ∧ c.position ≤ f.position ∧ f.position < c.explored

theorem Carried.next {c c' : Cursor} {failure : Option Failure} {g : Failure}
    (h : Carried c failure) (hg : g.isFatal = false) (hpos : c.position ≤ g.position)
    (hrec : g.position < c'.explored) (hseen : c.explored ≤ c'.explored) :
    Carried (c'.restore c.position) (some (carry failure g)) := by
  intro f hf
  cases failure with
  | none =>
    cases hf
    exact ⟨hg, hpos, hrec⟩
  | some previous =>
    cases hf
    obtain ⟨hsoft, hpos', hrec'⟩ := h previous rfl
    have hmerge := previous.position_merge g
    refine ⟨Failure.isFatal_merge hsoft hg, ?_, ?_⟩
    · show c.position ≤ (previous.merge g).position
      omega
    · show (previous.merge g).position < c'.explored
      omega

/-- Parsers that are tried in order.  One of them is left, or has failed. -/
theorem tryEach {ps : List (Parser α)} (hps : ∀ p ∈ ps, p.Tracks all hard) {c : Cursor}
    {failure : Option Failure} (hc : c.tokens = all) (hne : failure = none → ps ≠ [])
    (hf : Carried c failure) : Trace c hard (Parser.tryEach c.position ps failure c) := by
  induction ps generalizing c failure with
  | nil =>
    cases failure with
    | none => exact absurd rfl (hne rfl)
    | some f =>
      obtain ⟨hsoft, hpos, hrec⟩ := hf f rfl
      exact .soft hsoft rfl hpos hrec (Nat.le_refl _)
  | cons p ps ih =>
    rw [tryEach_cons]
    refine (hps p List.mem_cons_self c hc).recover fun g c' hg htok hpos hrec hseen => ?_
    have hrest := fun p hp => hps p (List.mem_cons_of_mem _ hp)
    refine (ih (c := c'.restore c.position) hrest (htok.trans hc) ?_ ?_).rebase htok
      (Nat.le_refl _) hseen
    · intro h
      cases h
    · exact hf.next hg hpos hrec hseen

theorem firstOf {ps : List (Parser α)} (hps : ∀ p ∈ ps, p.Tracks all hard) (hne : ps ≠ []) :
    (Parser.firstOf ps).Tracks all hard :=
  fun _ hc => tryEach hps hc (fun _ => hne) (by simp [Carried])

/-! ## Loops and recursion -/

theorem collect (hp : p.Tracks all hard) (turns : Nat) : (Parser.collect p turns).Tracks all hard := by
  induction turns with
  | zero => exact fun _ _ => .stalled
  | succ turns ih =>
    intro c hc
    have ho := hp c hc
    cases h : p c with
    | ok v c' =>
      rw [h] at ho
      rw [collect_ok h]
      cases ho with
      | ok htok hpos hseen => exact (ih c' (htok.trans hc)).map.rebase htok hpos hseen
    | fail f c' =>
      rw [h] at ho
      rw [collect_fail h]
      exact ho.give []
    | stalled =>
      rw [collect_stalled h]
      exact .stalled

theorem many (hp : p.Tracks all hard) (spare : Nat) : (Parser.many spare p).Tracks all hard :=
  fun c hc => hp.collect (c.turns spare) c hc

theorem many1 (hp : p.Tracks all hard) (spare : Nat) : (Parser.many1 spare p).Tracks all hard := by
  rw [Parser.many1_eq_seq]
  intro c hc
  refine (hp c hc).bind fun v c' _ htok => ?_
  exact (hp.many spare c' (htok.trans hc)).map

theorem sepBy {delimiter : Parser β} (hp : p.Tracks all hard) (hd : delimiter.Tracks all hard)
    (spare : Nat) : (Parser.sepBy spare p delimiter).Tracks all hard := by
  intro c hc
  have ho := hp c hc
  rw [Parser.sepBy_apply]
  cases h : p c with
  | ok v c' =>
    rw [h] at ho
    cases ho with
    | ok htok hpos hseen =>
      have hnext : (Parser.map Prod.snd (Parser.seq delimiter p)).Tracks all hard :=
        (hd.seq fun _ _ _ _ _ => hp).map
      exact (hnext.many spare c' (htok.trans hc)).map.rebase htok hpos hseen
  | fail f c' =>
    rw [h] at ho
    exact ho.give []
  | stalled => exact .stalled

theorem joinTails {tail : Parser (Tail α)} (ht : tail.Tracks all hard) (turns : Nat)
    (tree : Tree α) : (Parser.joinTails tail turns tree).Tracks all hard := by
  induction turns generalizing tree with
  | zero => exact fun _ _ => .stalled
  | succ turns ih =>
    intro c hc
    have ho := ht c hc
    cases h : tail c with
    | ok v c' =>
      rw [h] at ho
      cases ho with
      | ok htok hpos hseen =>
        cases v with
        | more op right =>
          rw [joinTails_more h]
          exact (ih _ c' (htok.trans hc)).rebase htok hpos hseen
        | last op right =>
          rw [joinTails_last h]
          exact .ok htok hpos hseen
    | fail f c' =>
      rw [h] at ho
      rw [joinTails_fail h]
      exact ho.give tree
    | stalled =>
      rw [joinTails_stalled h]
      exact .stalled

theorem chain {operand : Parser (Tree α)} {tail : Parser (Tail α)}
    (ho : operand.Tracks all hard) (ht : tail.Tracks all hard) (spare : Nat) :
    (Parser.chain spare operand tail).Tracks all hard := by
  intro c hc
  refine (ho c hc).bind fun tree c' _ htok => ?_
  exact ht.joinTails _ tree c' (htok.trans hc)

theorem fix {body : Parser α → Parser α}
    (h : ∀ p : Parser α, p.Tracks all hard → (body p).Tracks all hard) (spare : Nat) :
    (Parser.fix spare body).Tracks all hard := by
  have key : ∀ turns, (Parser.iterate body turns).Tracks all hard := by
    intro turns
    induction turns with
    | zero => exact fun _ _ => .stalled
    | succ turns ih => exact h _ ih
  exact fun c hc => key (c.turns spare) c hc

end Parser.Tracks

/-! ## Traced rules -/

namespace Rule
variable {Γ Δ : List Type} {α : Type} {may opens : Token → Prop} {behind : Prop}

/-- The rule reads one token, of which `P` holds. -/
def Takes (P : Token → Prop) {Γ : List Type} {α : Type} : Rule Γ α → Prop
  | token decode _ => ∀ t v, decode t = some v → P t
  | _ => False

/-- **Rules that leave a trace.**  They read tokens that they `may`, and commit themselves
only right behind a token that `opens` something, or from the start if that is what they
are `behind`. -/
def Traced (may opens : Token → Prop) {Γ : List Type} {α : Type} : Rule Γ α → Prop → Prop
  | token decode _, _ => ∀ t v, decode t = some v → may t
  | atEnd, _ => False
  | dangling, _ => False
  | seq first second, behind =>
    first.Traced may opens behind ∧ second.Traced may opens (behind ∨ first.Takes opens)
  | map _ rule, behind => rule.Traced may opens behind
  | or first second, behind => first.Traced may opens behind ∧ second.Traced may opens behind
  -- What is read before a value is refused leaves no trace, so it must be one token.
  | filter _ _ rule, _ => rule.Takes may
  | label _ rule, behind => rule.Traced may opens behind
  -- Without alternatives there is a failure, but nothing in the record.
  | firstOf (n := n) rules, behind => 0 < n ∧ ∀ i, (rules i).Traced may opens behind
  | sequence rules, behind => ∀ i, (rules i).Traced may opens behind
  | many rule, behind => rule.Traced may opens behind
  | many1 rule, behind => rule.Traced may opens behind
  | sepBy item delimiter, behind =>
    item.Traced may opens behind ∧ delimiter.Traced may opens behind
  | optional rule, behind => rule.Traced may opens behind
  | commit rule, behind => behind ∧ rule.Traced may opens behind
  | toEnd _, _ => False
  | orGroup operand group, behind =>
    operand.Traced may opens behind ∧ group.Traced may opens behind
  | chain _ operand tail, behind =>
    operand.Traced may opens behind ∧ tail.Traced may opens behind
  | fix body, _ => body.Traced may opens False
  | share shared body, behind => shared.Traced may opens False ∧ body.Traced may opens behind
  | ref _, _ => True

/-- A rule that reads one token finds it among the tokens. -/
theorem Takes.mem {P : Token → Prop} {spare : Nat} {env : Env Γ} {rule : Rule Γ α} {v : α}
    {c c' : Cursor} (h : rule.Takes P) (hv : rule.eval spare env c = .ok v c') :
    ∃ t ∈ c.tokens, P t := by
  cases rule with
  | token decode expected =>
    change Parser.token decode expected c = .ok v c' at hv
    unfold Parser.token at hv
    split at hv
    · rename_i w hw
      obtain ⟨t, ht, hd⟩ := Option.bind_eq_some_iff.mp hw
      exact ⟨t, List.mem_of_getElem? ht, h t w hd⟩
    · cases hv
  | _ => exact h.elim

/-- **Traced rules track their runs.**  A fatal failure shows that the input holds a token
that opens something. -/
theorem Traced.tracks {spare : Nat} {all : List Token} {rule : Rule Γ α} {env : Env Γ}
    (h : rule.Traced may opens behind)
    (henv : ∀ β (x : Var Γ β), (env.get x).Tracks all (∃ t ∈ all, opens t)) :
    (rule.eval spare env).Tracks all (behind ∨ ∃ t ∈ all, opens t) := by
  induction rule generalizing behind with
  | token decode expected => exact .token decode expected
  | atEnd => exact h.elim
  | dangling => exact h.elim
  | seq first second ih ih' =>
    refine (ih h.1 henv).seq fun c v c' hc hv => (ih' h.2 henv).mono ?_
    rintro ((hb | htakes) | hopen)
    · exact Or.inl hb
    · exact Or.inr (hc ▸ htakes.mem hv)
    · exact Or.inr hopen
  | map f rule ih => exact (ih h henv).map
  | or first second ih ih' => exact (ih h.1 henv).or (ih' h.2 henv)
  | filter accepts expected rule ih =>
    cases rule with
    | token decode text => exact .filter (.token decode text)
    | _ => exact False.elim h
  | label name rule ih => exact (ih h henv).label name
  | @firstOf _ _ n rules ih =>
    refine .firstOf ?_ ?_
    · simp only [List.mem_ofFn, forall_exists_index]
      rintro _ i rfl
      exact ih i (h.2 i) henv
    · have hn := h.1
      exact List.ne_nil_of_length_pos (by simpa using hn)
  | sequence rules ih =>
    refine .sequence ?_
    simp only [List.mem_ofFn, forall_exists_index]
    rintro _ i rfl
    exact ih i (h i) henv
  | many rule ih => exact (ih h henv).many spare
  | many1 rule ih => exact (ih h henv).many1 spare
  | sepBy item delimiter ih ih' => exact (ih h.1 henv).sepBy (ih' h.2 henv) spare
  | optional rule ih => exact (ih h henv).optional
  | commit rule ih => exact (ih h.2 henv).commit (Or.inl h.1)
  | toEnd rule => exact h.elim
  | orGroup operand group ih ih' => exact (ih h.1 henv).orGroup (ih' h.2 henv)
  | chain level operand tail ih ih' => exact (ih h.1 henv).chain (ih' h.2 henv) spare
  | fix body ih =>
    have hfix : (Parser.fix spare fun self => body.eval spare (.cons self env)).Tracks all
        (∃ t ∈ all, opens t) := by
      refine .fix (fun self hself => (ih h ?_).mono (by simp)) spare
      intro β x
      cases x with
      | here => exact hself
      | there x => exact henv β x
    exact hfix.mono Or.inr
  | share shared body ih ih' =>
    refine ih' h.2 fun β x => ?_
    cases x with
    | here => exact (ih h.1 henv).mono (by simp)
    | there x => exact henv β x
  | ref x => exact (henv _ x).mono Or.inr

/-! ### Scope -/

theorem takes_rename {P : Token → Prop} (rule : Rule Γ α) (ρ : Renaming Γ Δ) :
    (rule.rename ρ).Takes P ↔ rule.Takes P := by
  cases rule <;> exact Iff.rfl

/-- Renamed references change nothing. -/
theorem traced_rename (rule : Rule Γ α) (ρ : Renaming Γ Δ) :
    (rule.rename ρ).Traced may opens behind ↔ rule.Traced may opens behind := by
  induction rule generalizing Δ behind with
  | token | atEnd | dangling | toEnd | ref => exact Iff.rfl
  | filter accepts expected rule => exact takes_rename rule ρ
  | seq first second ih ih' => simp only [rename, Traced, takes_rename, ih, ih']
  | or _ _ ih ih' => simp only [rename, Traced, ih, ih']
  | sepBy _ _ ih ih' => simp only [rename, Traced, ih, ih']
  | orGroup _ _ ih ih' => simp only [rename, Traced, ih, ih']
  | chain _ _ _ ih ih' => simp only [rename, Traced, ih, ih']
  | share _ _ ih ih' => simp only [rename, Traced, ih, ih']
  | map _ _ ih => simp only [rename, Traced, ih]
  | label _ _ ih => simp only [rename, Traced, ih]
  | firstOf _ ih => simp only [rename, Traced, ih]
  | sequence _ ih => simp only [rename, Traced, ih]
  | many _ ih => simp only [rename, Traced, ih]
  | many1 _ ih => simp only [rename, Traced, ih]
  | optional _ ih => simp only [rename, Traced, ih]
  | commit _ ih => simp only [rename, Traced, ih]
  | fix _ ih => simp only [rename, Traced, ih]

theorem traced_weaken {γ : Type} {rule : Rule Γ α} :
    (rule.weaken : Rule (γ :: Γ) α).Traced may opens behind ↔ rule.Traced may opens behind :=
  traced_rename rule _

theorem traced_oneOf {rules : List (Rule Γ α)} (hne : rules ≠ [])
    (h : ∀ rule ∈ rules, rule.Traced may opens behind) :
    (oneOf rules).Traced may opens behind :=
  ⟨List.length_pos_iff.mpr hne, fun i => h _ (rules.get_mem i)⟩

end Rule

end Fixity
