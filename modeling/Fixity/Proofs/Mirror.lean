import Mathlib.Data.List.Forall2
import Fixity.Proofs.Trace

/-! # Runs that mirror each other

A rule is run on two inputs.  The tokens of the inner one, up to some size, look the same
in the outer one, a number of tokens further on: at each place the two inputs hold the
same token, or both hold none that the rule may read (`Window`).  As long as the inner run
looks at nothing else, the outer run takes the same steps: it returns the same value or
fails at the same place, further on by the offset, and leaves the same record
(`Rule.Traced.mirrors`).

That the inner run has not looked further can be seen from what it leaves behind
(`Outcome.Within`), since everything that it looked at is behind it or in the record.  The
outer run may have more turns to take, never fewer.
-/
namespace Fixity

/-! ## What was looked at -/

/-- Nothing behind the first `n` tokens was looked at. -/
def Outcome.Within {α : Type} (n : Nat) : Outcome α → Prop
  | ok _ c => c.position < n ∧ c.explored ≤ n
  | fail _ c => c.explored ≤ n
  | stalled => False

namespace Outcome
variable {α β : Type} {n : Nat} {o : Outcome α}

theorem Within.ne_stalled (h : o.Within n) : o ≠ .stalled := by
  rintro rfl
  exact h

@[simp] theorem within_map {f : α → β} : (o.map f).Within n ↔ o.Within n := by
  cases o <;> exact Iff.rfl

/-- A run that looks at nothing further starts within. -/
theorem Within.start {c : Cursor} {hard : Prop} (h : o.Within n) (ht : Trace c hard o) :
    c.position < n ∧ c.explored ≤ n := by
  cases ht with
  | ok _ hpos hseen =>
    obtain ⟨hlt, hle⟩ := h
    omega
  | @fail _ c' _ hpos hrec hseen _ =>
    have hle : c'.explored ≤ n := h
    omega
  | stalled => exact h.elim

theorem Within.of_bind {next : α → Cursor → Outcome β} (h : (o.bind next).Within n)
    (ht : ∀ v c, o = .ok v c → Trace c True (next v c)) : o.Within n := by
  cases o with
  | ok v c => exact Within.start (o := next v c) h (ht v c rfl)
  | fail f c => exact h
  | stalled => exact h

/-- A run that goes back after a failure and gives a value. -/
theorem Within.of_give {f : Failure} {c : Cursor} {p : Nat} {v : β}
    (h : (if f.isFatal = true then .fail f c else .ok v (c.restore p) : Outcome β).Within n) :
    (fail f c : Outcome α).Within n := by
  split at h
  · exact h
  · exact h.2

theorem Within.of_recover {next : Failure → Cursor → Outcome α} (h : (o.recover next).Within n)
    (ht : ∀ f c, o = .fail f c → f.isFatal = false → (next f c).Within n → c.explored ≤ n) :
    o.Within n := by
  cases o with
  | ok v c => exact h
  | fail f c =>
    cases hf : f.isFatal with
    | true =>
      rw [recover_fatal hf] at h
      exact h
    | false =>
      rw [recover_recoverable hf] at h
      exact ht f c rfl hf h
  | stalled => exact h

end Outcome

/-! ## Windows -/

/-- **Two inputs that look the same in a window**, to rules that `may` read certain
tokens only. -/
structure Window (may : Token → Prop) where
  /-- The input in which the window starts at the offset. -/
  outer : List Token
  /-- The input in which the window comes first. -/
  inner : List Token
  /-- The number of tokens before the window in the outer input. -/
  offset : Nat
  /-- The number of tokens in the window. -/
  size : Nat
  /-- The turns that the outer run is granted beyond those that it needs. -/
  spare : Nat
  alike : ∀ i < size, outer[offset + i]? = inner[i]? ∨
    (∀ t ∈ outer[offset + i]?, ¬ may t) ∧ ∀ t ∈ inner[i]?, ¬ may t
  turns : offset + inner.length ≤ outer.length + spare

namespace Window
variable {may : Token → Prop} (w : Window may) {α β : Type} {c c' d d' : Cursor}
  {f f' g g' : Failure} {o o' : Outcome α} {p p' q q' : Parser α}

/-- Two cursors at the same place of the window, with the same record in it. -/
structure Pairs (c d : Cursor) : Prop where
  outer : c.tokens = w.outer
  inner : d.tokens = w.inner
  position : c.position = w.offset + d.position
  bound : d.position ≤ w.inner.length
  explored : max w.offset c.explored = w.offset + d.explored

/-- Two failures at the same place of the window, both fatal or both not. -/
structure Shifts (f g : Failure) : Prop where
  position : f.position = w.offset + g.position
  isFatal : f.isFatal = g.isFatal

/-- **Two outcomes that agree.** -/
inductive Agrees : Outcome α → Outcome α → Prop where
  | ok {v : α} {c d : Cursor} (h : w.Pairs c d) : Agrees (.ok v c) (.ok v d)
  | fail {f g : Failure} {c d : Cursor} (hf : w.Shifts f g) (h : w.Pairs c d) :
      Agrees (.fail f c) (.fail g d)

/-- **One parser mirrors another**: its runs in the outer input agree with those of the
other in the inner input, as long as these stay in the window. -/
structure Mirrors (p q : Parser α) : Prop where
  tracks : q.Tracks w.inner True
  agrees : ∀ c d, w.Pairs c d → (q d).Within w.size → w.Agrees (p c) (q d)

variable {w}

namespace Pairs

/-- Both cursors are moved back to where two others stand. -/
theorem restore (h : w.Pairs c d) (h' : w.Pairs c' d') :
    w.Pairs (c'.restore c.position) (d'.restore d.position) :=
  ⟨h'.outer, h'.inner, h.position, h.bound, h'.explored⟩

theorem remember (h : w.Pairs c d) (hf : f.position = w.offset + g.position) :
    w.Pairs (c.remember f) (d.remember g) := by
  refine ⟨h.outer, h.inner, h.position, h.bound, ?_⟩
  have hexp := h.explored
  rw [Cursor.explored_remember, Cursor.explored_remember]
  omega

theorem rememberFatal (h : w.Pairs c d) : w.Pairs (c.rememberFatal f) (d.rememberFatal g) :=
  ⟨h.outer, h.inner, h.position, h.bound, h.explored⟩

theorem advance (h : w.Pairs c d) (hc : c.hasNext = true) (hd : d.hasNext = true) :
    w.Pairs c.advance d.advance := by
  have hlt : d.position < w.inner.length := by
    rw [← h.inner]
    exact of_decide_eq_true hd
  rw [Cursor.advance, Cursor.advance, if_pos hc, if_pos hd]
  refine ⟨h.outer, h.inner, ?_, hlt, h.explored⟩
  show c.position + 1 = w.offset + (d.position + 1)
  rw [h.position, Nat.add_assoc]

/-- What a rule that reads one token can see is the same. -/
theorem decode (h : w.Pairs c d) {decode : Token → Option α}
    (hmay : ∀ t v, decode t = some v → may t) (hlt : d.position < w.size) :
    c.peek?.bind decode = d.peek?.bind decode := by
  have hnone : ∀ x : Option Token, (∀ t ∈ x, ¬ may t) → x.bind decode = none := by
    intro x hx
    rw [Option.bind_eq_none_iff]
    intro t ht
    cases hdec : decode t with
    | none => rfl
    | some v => exact absurd (hmay t v hdec) (hx t ht)
  rw [Cursor.peek?, Cursor.peek?, h.outer, h.inner, h.position]
  rcases w.alike d.position hlt with heq | ⟨houter, hinner⟩
  · rw [heq]
  · rw [hnone _ houter, hnone _ hinner]

/-- The outer run has no fewer turns. -/
theorem turns (h : w.Pairs c d) : d.turns 0 ≤ c.turns w.spare := by
  have hle := w.turns
  have hpos := h.position
  have hbound := h.bound
  unfold Cursor.turns Cursor.remaining
  rw [h.outer, h.inner]
  omega

theorem shifts_unmet (h : w.Pairs c d) (expected : String) :
    w.Shifts (c.unmet expected) (d.unmet expected) where
  position := by rw [Cursor.position_unmet, Cursor.position_unmet, h.position]
  isFatal := by rw [Cursor.isFatal_unmet, Cursor.isFatal_unmet]

theorem reject (h : w.Pairs c d) (expected : String) :
    w.Agrees (Parser.reject expected c : Outcome α) (Parser.reject expected d) :=
  .fail (h.shifts_unmet expected) (h.remember (h.shifts_unmet expected).position)

end Pairs

theorem Shifts.merge (h : w.Shifts f g) (h' : w.Shifts f' g') (hg : g.isFatal = false)
    (hg' : g'.isFatal = false) : w.Shifts (f.merge f') (g.merge g') where
  position := by
    have hpos := h.position
    have hpos' := h'.position
    rw [Failure.position_merge, Failure.position_merge]
    omega
  isFatal := by
    rw [Failure.isFatal_merge (h.isFatal.trans hg) (h'.isFatal.trans hg'),
      Failure.isFatal_merge hg hg']

namespace Agrees

theorem eq_ok {v : α} (h : w.Agrees o (.ok v d)) : ∃ c, o = .ok v c ∧ w.Pairs c d := by
  cases h with
  | ok hpair => exact ⟨_, rfl, hpair⟩

theorem eq_fail (h : w.Agrees o (.fail g d)) :
    ∃ f c, o = .fail f c ∧ w.Shifts f g ∧ w.Pairs c d := by
  cases h with
  | fail hf hpair => exact ⟨_, _, rfl, hf, hpair⟩

theorem bind {next next' : α → Cursor → Outcome β} (h : w.Agrees o o')
    (hnext : ∀ v c d, o' = .ok v d → w.Pairs c d → w.Agrees (next v c) (next' v d)) :
    w.Agrees (o.bind next) (o'.bind next') := by
  cases h with
  | ok hpair => exact hnext _ _ _ rfl hpair
  | fail hf hpair => exact .fail hf hpair

theorem map {f : α → β} (h : w.Agrees o o') : w.Agrees (o.map f) (o'.map f) :=
  h.bind fun _ _ _ _ hpair => .ok hpair

theorem recover {next next' : Failure → Cursor → Outcome α} (h : w.Agrees o o')
    (hnext : ∀ f g c d, o' = .fail g d → g.isFatal = false → w.Shifts f g → w.Pairs c d →
      w.Agrees (next f c) (next' g d)) : w.Agrees (o.recover next) (o'.recover next') := by
  cases h with
  | ok hpair => exact .ok hpair
  | @fail f g c d hf hpair =>
    cases hg : g.isFatal with
    | true =>
      rw [Outcome.recover_fatal hg, Outcome.recover_fatal (hf.isFatal.trans hg)]
      exact .fail hf hpair
    | false =>
      rw [Outcome.recover_recoverable hg, Outcome.recover_recoverable (hf.isFatal.trans hg)]
      exact hnext f g c d rfl hg hf hpair

/-- A failure after which the run goes back and gives a value. -/
theorem give (hf : w.Shifts f g) (hpair : w.Pairs c d) (hpair' : w.Pairs c' d') (v : α) :
    w.Agrees (if f.isFatal = true then .fail f c' else .ok v (c'.restore c.position))
      (if g.isFatal = true then .fail g d' else .ok v (d'.restore d.position)) := by
  rw [hf.isFatal]
  split
  · exact .fail hf hpair'
  · exact .ok (hpair.restore hpair')

end Agrees

namespace Mirrors

/-! ## One token -/

theorem token {decode : Token → Option α} (expected : String)
    (hmay : ∀ t v, decode t = some v → may t) :
    w.Mirrors (Parser.token decode expected) (Parser.token decode expected) := by
  have htracks : (Parser.token decode expected).Tracks w.inner True := .token decode expected
  refine ⟨htracks, fun c d hpair hw => ?_⟩
  have hlt := (hw.start (htracks d hpair.inner)).1
  have hdec := hpair.decode hmay hlt
  unfold Parser.token
  rw [hdec]
  cases hv : d.peek?.bind decode with
  | none => exact hpair.reject expected
  | some v =>
    obtain ⟨t, ht, -⟩ := Option.bind_eq_some_iff.mp hv
    obtain ⟨t', ht', -⟩ := Option.bind_eq_some_iff.mp (hdec.trans hv)
    refine .ok (hpair.advance ?_ ?_)
    · exact c.hasNext_iff_peek?.mpr ⟨t', ht'⟩
    · exact d.hasNext_iff_peek?.mpr ⟨t, ht⟩

/-- One token of which only some values are accepted. -/
theorem filter_token {decode : Token → Option α} (accepts : α → Bool) (expected label : String)
    (hmay : ∀ t v, decode t = some v → may t) :
    w.Mirrors (Parser.filter accepts label (Parser.token decode expected))
      (Parser.filter accepts label (Parser.token decode expected)) := by
  have htracks : (Parser.filter accepts label (Parser.token decode expected)).Tracks w.inner True :=
    .filter (.token decode expected)
  refine ⟨htracks, fun c d hpair hw => ?_⟩
  have hlt := (hw.start (htracks d hpair.inner)).1
  have hdec := hpair.decode hmay hlt
  unfold Parser.filter Parser.token
  rw [hdec]
  cases hv : d.peek?.bind decode with
  | none => exact hpair.reject expected
  | some v =>
    obtain ⟨t, ht, -⟩ := Option.bind_eq_some_iff.mp hv
    obtain ⟨t', ht', -⟩ := Option.bind_eq_some_iff.mp (hdec.trans hv)
    have hnext := hpair.advance (c.hasNext_iff_peek?.mpr ⟨t', ht'⟩)
      (d.hasNext_iff_peek?.mpr ⟨t, ht⟩)
    simp only [Outcome.bind_ok]
    split
    · exact .ok hnext
    · exact (hpair.restore hnext).reject label

/-! ## Sequences and values -/

theorem map {f : α → β} (h : w.Mirrors p q) : w.Mirrors (Parser.map f p) (Parser.map f q) := by
  refine ⟨h.tracks.map, fun c d hpair hw => ?_⟩
  exact (h.agrees c d hpair (Outcome.within_map.mp hw)).map

/-- What goes on behind a value. -/
theorem bind {next next' : α → Parser β} (h : w.Mirrors p p')
    (hnext : ∀ v, w.Mirrors (next v) (next' v)) :
    w.Mirrors (fun c => (p c).bind next) (fun d => (p' d).bind next') := by
  have htracks : Parser.Tracks (fun d => (p' d).bind next') w.inner True := by
    intro d hd
    refine (h.tracks d hd).bind fun v d' _ htok => ?_
    exact (hnext v).tracks d' (htok.trans hd)
  refine ⟨htracks, fun c d hpair hw => ?_⟩
  have hw' : (p' d).Within w.size := by
    refine hw.of_bind fun v d' hv => ?_
    exact (hnext v).tracks d' (h.tracks.tokens_of_ok hpair.inner hv)
  refine (h.agrees c d hpair hw').bind fun v c' d' hv hpair' => ?_
  rw [hv] at hw
  exact (hnext v).agrees c' d' hpair' hw

theorem seq {r r' : Parser β} (h : w.Mirrors p p') (hr : w.Mirrors r r') :
    w.Mirrors (Parser.seq p r) (Parser.seq p' r') :=
  h.bind fun _ => hr.map

theorem sequence {ps qs : List (Parser α)} (h : List.Forall₂ w.Mirrors ps qs) :
    w.Mirrors (Parser.sequence ps) (Parser.sequence qs) := by
  induction h with
  | nil => exact ⟨.sequence (by simp), fun c d hpair _ => .ok hpair⟩
  | cons hp _ ih => exact hp.bind fun _ => ih.map

theorem commit (h : w.Mirrors p q) : w.Mirrors (Parser.commit p) (Parser.commit q) := by
  refine ⟨h.tracks.commit trivial, fun c d hpair hw => ?_⟩
  have hw' : (q d).Within w.size := hw.of_recover fun g d' _ _ hle => hle
  refine (h.agrees c d hpair hw').recover fun f g c' d' _ _ hf hpair' => ?_
  exact .fail ⟨hf.position, rfl⟩ hpair'.rememberFatal

/-! ## Choices -/

/-- The second of two alternatives, after a failure of the first. -/
theorem second (hq : w.Mirrors q q') (hpair : w.Pairs c d) (hpair' : w.Pairs c' d')
    (hf : w.Shifts f g) (hg : g.isFatal = false)
    (hw : ((q' (d'.restore d.position)).recover fun g' d'' =>
      .fail (g.merge g') (d''.restore d.position)).Within w.size) :
    w.Agrees
      ((q (c'.restore c.position)).recover fun f' c'' =>
        .fail (f.merge f') (c''.restore c.position))
      ((q' (d'.restore d.position)).recover fun g' d'' =>
        .fail (g.merge g') (d''.restore d.position)) := by
  have hw' : (q' (d'.restore d.position)).Within w.size :=
    hw.of_recover fun g' d'' _ _ hle => hle
  refine (hq.agrees _ _ (hpair.restore hpair') hw').recover ?_
  intro f' g' c'' d'' _ hg' hf' hpair''
  exact .fail (hf.merge hf' hg hg') (hpair.restore hpair'')

/-- A recoverable failure after which a second parser is tried has been looked at. -/
theorem explored_of_second (hp : p'.Tracks w.inner True) (hq : q'.Tracks w.inner True)
    (hd : d.tokens = w.inner) (hv : p' d = .fail g d') (hg : g.isFatal = false)
    (hw : ((q' (d'.restore d.position)).recover fun g' d'' =>
      .fail (g.merge g') (d''.restore d.position)).Within w.size) : d'.explored ≤ w.size := by
  have ht := hp d hd
  rw [hv] at ht
  cases ht with
  | fail htok hpos hrec hseen => exact (hw.start (hq.second hd hg htok hpos hrec)).2

theorem or (hp : w.Mirrors p p') (hq : w.Mirrors q q') :
    w.Mirrors (Parser.or p q) (Parser.or p' q') := by
  refine ⟨hp.tracks.or hq.tracks, fun c d hpair hw => ?_⟩
  have hw' : (p' d).Within w.size := by
    refine hw.of_recover fun g d' hv hg hnext => ?_
    exact explored_of_second hp.tracks hq.tracks hpair.inner hv hg hnext
  refine (hp.agrees c d hpair hw').recover fun f g c' d' hv hg hf hpair' => ?_
  rw [Parser.or, hv, Outcome.recover_recoverable hg] at hw
  exact hq.second hpair hpair' hf hg hw

theorem orGroup (hp : w.Mirrors p p') (hq : w.Mirrors q q') :
    w.Mirrors (Parser.orGroup p q) (Parser.orGroup p' q') := by
  refine ⟨hp.tracks.orGroup hq.tracks, fun c d hpair hw => ?_⟩
  have hw' : (p' d).Within w.size := by
    refine hw.of_recover fun g d' hv hg hnext => ?_
    split at hnext
    · exact explored_of_second hp.tracks hq.tracks hpair.inner hv hg hnext
    · exact hnext
  refine (hp.agrees c d hpair hw').recover fun f g c' d' hv hg hf hpair' => ?_
  -- Whether the operand failed at its first token is the same on both sides.
  have hiff : f.position = c.position ↔ g.position = d.position := by
    rw [hf.position, hpair.position]
    omega
  rw [Parser.orGroup, hv, Outcome.recover_recoverable hg] at hw
  simp only [hiff]
  split
  · rename_i hfirst
    rw [if_pos hfirst] at hw
    exact hq.second hpair hpair' hf hg hw
  · exact .fail hf hpair'

theorem label (name : String) (h : w.Mirrors p q) :
    w.Mirrors (Parser.label name p) (Parser.label name q) := by
  refine ⟨h.tracks.label name, fun c d hpair hw => ?_⟩
  have hw' : (q d).Within w.size := by
    refine hw.of_recover fun g d' _ _ hnext => ?_
    split at hnext
    · have hle : (d'.remember { g with expected := [name] }).explored ≤ w.size := hnext
      rw [Cursor.explored_remember] at hle
      omega
    · exact hnext
  refine (h.agrees c d hpair hw').recover fun f g c' d' _ _ hf hpair' => ?_
  have hiff : f.position = c.position ↔ g.position = d.position := by
    rw [hf.position, hpair.position]
    omega
  simp only [hiff]
  split
  · exact .fail ⟨hf.position, hf.isFatal⟩ (hpair'.remember hf.position)
  · exact .fail hf hpair'

theorem optional (h : w.Mirrors p q) : w.Mirrors (Parser.optional p) (Parser.optional q) := by
  refine ⟨h.tracks.optional, fun c d hpair hw => ?_⟩
  have hw' : ((q d).map some).Within w.size := hw.of_recover fun g d' _ _ hnext => hnext.2
  refine (h.agrees c d hpair (Outcome.within_map.mp hw')).map.recover ?_
  exact fun f g c' d' _ _ _ hpair' => .ok (hpair.restore hpair')

theorem tracks_of_forall₂ {ps qs : List (Parser α)} (h : List.Forall₂ w.Mirrors ps qs) :
    ∀ q ∈ qs, q.Tracks w.inner True := by
  induction h with
  | nil => simp
  | cons hp _ ih => exact List.forall_mem_cons.mpr ⟨hp.tracks, ih⟩

/-- Parsers that are tried in order. -/
theorem tryEach {ps qs : List (Parser α)} (h : List.Forall₂ w.Mirrors ps qs)
    {failure failure' : Option Failure} (hpair : w.Pairs c d)
    (hf : Option.Rel w.Shifts failure failure') (hcarry : Parser.Tracks.Carried d failure')
    (hw : (Parser.tryEach d.position qs failure' d).Within w.size) :
    w.Agrees (Parser.tryEach c.position ps failure c)
      (Parser.tryEach d.position qs failure' d) := by
  induction h generalizing c d failure failure' with
  | nil =>
    cases hf with
    | none => exact .fail (hpair.shifts_unmet _) hpair
    | some hshift => exact .fail hshift hpair
  | @cons p q ps qs hp hs ih =>
    rw [Parser.Tracks.tryEach_cons] at hw
    rw [Parser.Tracks.tryEach_cons, Parser.Tracks.tryEach_cons]
    have hqs := tracks_of_forall₂ hs
    -- What follows a failure of the first parser starts where that one started.
    have hnext : ∀ g d', q d = .fail g d' → g.isFatal = false → d'.tokens = w.inner ∧
        Parser.Tracks.Carried (d'.restore d.position)
          (some (Parser.Tracks.carry failure' g)) := by
      intro g d' hv hg
      have ht := hp.tracks d hpair.inner
      rw [hv] at ht
      cases ht with
      | fail htok hpos hrec hseen =>
        exact ⟨htok.trans hpair.inner, hcarry.next hg hpos hrec hseen⟩
    have hw' : (q d).Within w.size := by
      refine hw.of_recover fun g d' hv hg hrest => ?_
      obtain ⟨htok, hcarry'⟩ := hnext g d' hv hg
      exact (hrest.start (Parser.Tracks.tryEach (c := d'.restore d.position) hqs htok (by simp)
        hcarry')).2
    refine (hp.agrees c d hpair hw').recover fun f g c' d' hv hg hfg hpair' => ?_
    obtain ⟨-, hcarry'⟩ := hnext g d' hv hg
    rw [hv, Outcome.recover_recoverable hg] at hw
    refine ih (hpair.restore hpair') ?_ hcarry' hw
    cases hf with
    | none => exact .some hfg
    | @some f₀ g₀ hshift => exact .some (hshift.merge hfg (hcarry g₀ rfl).1 hg)

theorem firstOf {ps qs : List (Parser α)} (h : List.Forall₂ w.Mirrors ps qs) (hne : qs ≠ []) :
    w.Mirrors (Parser.firstOf ps) (Parser.firstOf qs) := by
  refine ⟨.firstOf (tracks_of_forall₂ h) hne, fun c d hpair hw => ?_⟩
  exact tryEach h hpair .none (by simp [Parser.Tracks.Carried]) hw

/-! ## Loops and recursion -/

theorem collect (h : w.Mirrors p q) {n m : Nat} (hle : n ≤ m) :
    w.Mirrors (Parser.collect p m) (Parser.collect q n) := by
  induction n generalizing m with
  | zero => exact ⟨h.tracks.collect 0, fun c d _ hw => hw.elim⟩
  | succ n ih =>
    obtain ⟨m, rfl⟩ : ∃ k, m = k + 1 := ⟨m - 1, by omega⟩
    refine ⟨h.tracks.collect (n + 1), fun c d hpair hw => ?_⟩
    have hrest := ih (Nat.le_of_succ_le_succ hle)
    have hag := h.agrees c d hpair
    cases hq : q d with
    | ok v d' =>
      rw [Parser.collect_ok hq, Outcome.within_map] at hw
      rw [hq] at hag
      have htok := h.tracks.tokens_of_ok hpair.inner hq
      obtain ⟨c', hp, hpair'⟩ := (hag (hw.start (hrest.tracks d' htok))).eq_ok
      rw [Parser.collect_ok hq, Parser.collect_ok hp]
      exact (hrest.agrees c' d' hpair' hw).map
    | fail g d' =>
      rw [Parser.collect_fail hq] at hw
      rw [hq] at hag
      obtain ⟨f, c', hp, hf, hpair'⟩ := (hag hw.of_give).eq_fail
      rw [Parser.collect_fail hq, Parser.collect_fail hp]
      exact .give hf hpair hpair' []
    | stalled =>
      rw [Parser.collect_stalled hq] at hw
      exact hw.elim

theorem many (h : w.Mirrors p q) : w.Mirrors (Parser.many w.spare p) (Parser.many 0 q) :=
  ⟨h.tracks.many 0, fun c d hpair hw => (h.collect hpair.turns).agrees c d hpair hw⟩

theorem many1 (h : w.Mirrors p q) : w.Mirrors (Parser.many1 w.spare p) (Parser.many1 0 q) := by
  rw [Parser.many1_eq_seq, Parser.many1_eq_seq]
  exact h.seq h.many

theorem sepBy {r r' : Parser β} (h : w.Mirrors p q) (hr : w.Mirrors r r') :
    w.Mirrors (Parser.sepBy w.spare p r) (Parser.sepBy 0 q r') := by
  have hrest := (hr.seq h).map (f := Prod.snd) |>.many
  refine ⟨h.tracks.sepBy hr.tracks 0, fun c d hpair hw => ?_⟩
  have hag := h.agrees c d hpair
  rw [Parser.sepBy_apply] at hw ⊢
  rw [Parser.sepBy_apply]
  cases hq : q d with
  | ok v d' =>
    rw [hq] at hw hag
    have hw' := Outcome.within_map.mp hw
    have htok := h.tracks.tokens_of_ok hpair.inner hq
    obtain ⟨c', hp, hpair'⟩ := (hag (hw'.start (hrest.tracks d' htok))).eq_ok
    rw [hp]
    exact (hrest.agrees c' d' hpair' hw').map
  | fail g d' =>
    rw [hq] at hw hag
    obtain ⟨f, c', hp, hf, hpair'⟩ := (hag (Outcome.Within.of_give hw)).eq_fail
    rw [hp]
    exact .give hf hpair hpair' []
  | stalled =>
    rw [hq] at hw
    exact hw.elim

theorem joinTails {r r' : Parser (Tail α)} (h : w.Mirrors r r') {n m : Nat} (hle : n ≤ m)
    (tree : Tree α) : w.Mirrors (Parser.joinTails r m tree) (Parser.joinTails r' n tree) := by
  induction n generalizing m tree with
  | zero => exact ⟨h.tracks.joinTails 0 tree, fun c d _ hw => hw.elim⟩
  | succ n ih =>
    obtain ⟨m, rfl⟩ : ∃ k, m = k + 1 := ⟨m - 1, by omega⟩
    refine ⟨h.tracks.joinTails (n + 1) tree, fun c d hpair hw => ?_⟩
    have hag := h.agrees c d hpair
    cases hr : r' d with
    | ok v d' =>
      rw [hr] at hag
      have htok := h.tracks.tokens_of_ok hpair.inner hr
      cases v with
      | more op right =>
        have hrest := ih (Nat.le_of_succ_le_succ hle) (.node op tree right)
        rw [Parser.joinTails_more hr] at hw
        obtain ⟨c', hp, hpair'⟩ := (hag (hw.start (hrest.tracks d' htok))).eq_ok
        rw [Parser.joinTails_more hr, Parser.joinTails_more hp]
        exact hrest.agrees c' d' hpair' hw
      | last op right =>
        rw [Parser.joinTails_last hr] at hw
        obtain ⟨c', hp, hpair'⟩ := (hag hw).eq_ok
        rw [Parser.joinTails_last hr, Parser.joinTails_last hp]
        exact .ok hpair'
    | fail g d' =>
      rw [Parser.joinTails_fail hr] at hw
      rw [hr] at hag
      obtain ⟨f, c', hp, hf, hpair'⟩ := (hag hw.of_give).eq_fail
      rw [Parser.joinTails_fail hr, Parser.joinTails_fail hp]
      exact .give hf hpair hpair' tree
    | stalled =>
      rw [Parser.joinTails_stalled hr] at hw
      exact hw.elim

theorem chain {operand operand' : Parser (Tree α)} {tail tail' : Parser (Tail α)}
    (h : w.Mirrors operand operand') (ht : w.Mirrors tail tail') :
    w.Mirrors (Parser.chain w.spare operand tail) (Parser.chain 0 operand' tail') := by
  refine h.bind fun tree => ⟨fun d hd => ht.tracks.joinTails _ tree d hd, fun c d hpair hw => ?_⟩
  exact (ht.joinTails hpair.turns tree).agrees c d hpair hw

theorem fix {body body' : Parser α → Parser α}
    (h : ∀ p q, w.Mirrors p q → w.Mirrors (body p) (body' q)) :
    w.Mirrors (Parser.fix w.spare body) (Parser.fix 0 body') := by
  have key : ∀ n m, n ≤ m → w.Mirrors (Parser.iterate body m) (Parser.iterate body' n) := by
    intro n
    induction n with
    | zero => exact fun m _ => ⟨fun _ _ => .stalled, fun c d _ hw => hw.elim⟩
    | succ n ih =>
      intro m hle
      obtain ⟨m, rfl⟩ : ∃ k, m = k + 1 := ⟨m - 1, by omega⟩
      exact h _ _ (ih m (Nat.le_of_succ_le_succ hle))
  refine ⟨fun d hd => (key _ _ (Nat.le_refl _)).tracks d hd, fun c d hpair hw => ?_⟩
  exact (key _ _ hpair.turns).agrees c d hpair hw

end Mirrors

end Window

namespace Rule
variable {Γ : List Type} {α : Type} {may opens : Token → Prop} {behind : Prop}

/-- **Runs of a traced rule mirror each other** in a window, if those of the rules around
it do. -/
theorem Traced.mirrors {w : Window may} {rule : Rule Γ α} {env env' : Env Γ}
    (h : rule.Traced may opens behind)
    (henv : ∀ β (x : Var Γ β), w.Mirrors (env.get x) (env'.get x)) :
    w.Mirrors (rule.eval w.spare env) (rule.eval 0 env') := by
  induction rule generalizing behind with
  | token decode expected => exact .token expected h
  | atEnd => exact h.elim
  | dangling => exact h.elim
  | seq first second ih ih' => exact (ih h.1 henv).seq (ih' h.2 henv)
  | map f rule ih => exact (ih h henv).map
  | or first second ih ih' => exact (ih h.1 henv).or (ih' h.2 henv)
  | filter accepts expected rule ih =>
    cases rule with
    | token decode text => exact .filter_token accepts text expected h
    | _ => exact False.elim h
  | label name rule ih => exact (ih h henv).label name
  | @firstOf _ _ n rules ih =>
    have hn := h.1
    refine .firstOf ?_ (List.ne_nil_of_length_pos (by simpa using hn))
    exact List.forall₂_iff_get.mpr ⟨by simp, fun i _ _ => by simpa using ih _ (h.2 _) henv⟩
  | sequence rules ih =>
    refine .sequence (List.forall₂_iff_get.mpr ⟨by simp, fun i _ _ => ?_⟩)
    simpa using ih _ (h _) henv
  | many rule ih => exact (ih h henv).many
  | many1 rule ih => exact (ih h henv).many1
  | sepBy item delimiter ih ih' => exact (ih h.1 henv).sepBy (ih' h.2 henv)
  | optional rule ih => exact (ih h henv).optional
  | commit rule ih => exact (ih h.2 henv).commit
  | toEnd rule => exact h.elim
  | orGroup operand group ih ih' => exact (ih h.1 henv).orGroup (ih' h.2 henv)
  | chain level operand tail ih ih' => exact (ih h.1 henv).chain (ih' h.2 henv)
  | fix body ih =>
    refine .fix fun p q hpq => ih h fun β x => ?_
    cases x with
    | here => exact hpq
    | there x => exact henv β x
  | share shared body ih ih' =>
    refine ih' h.2 fun β x => ?_
    cases x with
    | here => exact ih h.1 henv
    | there x => exact henv β x
  | ref x => exact henv _ x

end Rule

end Fixity
