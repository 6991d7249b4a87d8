import Fixity.Proofs.FirstToken
import Fixity.Proofs.Reading
import Fixity.Proofs.Reports

/-! # Going over tokens again

A parser that has failed leaves a record of how far it has looked.  Another parser that is
then tried from the same place fails **idly** if it does not look further than that
(`Parser.FailsIdly`): it is recoverable, and what remains of it is what there was before.
So an alternative that fails idly wherever the first one fails might as well not be there
(`RunRelation.Similar.or_idle`).

Whether a parser fails idly can be told from a run of another one over the same tokens.  One
parser **retreads** another one (`Parser.Retreads`) if, where all has been looked at that the
other one looks at, it fails idly where that one fails, and otherwise reads the same or
fails idly before.
-/
namespace Fixity

/-! ## Runs that differ in what was looked at before -/

/-- The same tokens, and as many of them looked at, if the first `depth` count anyway. -/
structure Cursor.SameBeyond (depth : Nat) (c d : Cursor) : Prop where
  tokens : c.tokens = d.tokens
  explored : max c.explored depth = max d.explored depth

/-- Failures at one position, of which both or none are fatal. -/
structure Failure.Alike (f g : Failure) : Prop where
  position : f.position = g.position
  isFatal : f.isFatal = g.isFatal
  kind : f.kind = .unexpected
  kind' : g.kind = .unexpected

namespace Cursor.SameBeyond
variable {depth : Nat} {c d : Cursor} {f g : Failure}

theorem remember (h : c.SameBeyond depth d) (hpos : f.position = g.position) :
    (c.remember f).SameBeyond depth (d.remember g) where
  tokens := h.tokens
  explored := by
    have hexplored := h.explored
    rw [explored_remember, explored_remember]
    omega

theorem advance (h : c.SameBeyond depth d) : c.advance.SameBeyond depth d.advance where
  tokens := by rw [tokens_advance, tokens_advance, h.tokens]
  explored := by rw [explored_advance, explored_advance, h.explored]

end Cursor.SameBeyond

theorem Failure.Alike.merge {f g f' g' : Failure} (h : f.Alike g) (h' : f'.Alike g')
    (hf : f.isFatal = false) (hf' : f'.isFatal = false) : (f.merge f').Alike (g.merge g') where
  position := by
    have hpos := h.position
    have hpos' := h'.position
    have hmerge := f.position_merge f'
    have hmerge' := g.position_merge g'
    omega
  isFatal := by
    have hg := h.isFatal.symm.trans hf
    have hg' := h'.isFatal.symm.trans hf'
    rw [Failure.isFatal_merge hf hf', Failure.isFatal_merge hg hg']
  kind := Failure.kind_merge h.kind h'.kind
  kind' := Failure.kind_merge h.kind' h'.kind'

/-- **Runs that go the same way**, and look equally far, if the first `depth` tokens count
as looked at. -/
def beyond (depth : Nat) : RunRelation where
  near c d := c.SameBeyond depth d ∧ c.position = d.position
  fails f c g d := c.SameBeyond depth d ∧ f.Alike g
  length h := by rw [h.1.tokens]
  position h := h.2
  isFatal h := h.2.isFatal
  failPosition h := h.2.position
  advance := by
    rintro c d ⟨h, hpos⟩ hnext
    have hnext' : d.hasNext = true := Cursor.hasNext_congr h.tokens hpos ▸ hnext
    refine ⟨h.advance, ?_⟩
    simp only [Cursor.advance, if_pos hnext, if_pos hnext', hpos]
  reject := by
    rintro c d expected ⟨h, hpos⟩
    have hfail : (c.unmet expected).position = (d.unmet expected).position := by
      rw [c.position_unmet, d.position_unmet, hpos]
    refine ⟨h.remember hfail, hfail, ?_, c.kind_unmet _, d.kind_unmet _⟩
    rw [c.isFatal_unmet, d.isFatal_unmet]
  giveUp _ h := ⟨⟨h.1.tokens, h.1.explored⟩, rfl⟩
  moved _ _ h := ⟨⟨h.1.tokens, h.1.explored⟩, h.2⟩
  merge h h' hf hf' := ⟨h'.1, h.2.merge h'.2 hf hf'⟩
  named _ h _ := ⟨h.1.remember h.2.position, h.2.position, h.2.isFatal, h.2.kind, h.2.kind'⟩
  toFatal h := ⟨⟨h.1.tokens, h.1.explored⟩, h.2.position, rfl, h.2.kind, h.2.kind'⟩

instance (depth : Nat) : (beyond depth).SameTokens := ⟨fun h => h.1.tokens⟩

/-- Records that have looked equally far lie at one position. -/
theorem Cursor.SameBeyond.furthest {c d : Cursor} (h : c.SameBeyond 0 d) :
    Option.Rel (Failure.Agrees Unrelated) c.furthest d.furthest := by
  have hexplored := h.explored
  simp only [Cursor.explored, Nat.max_zero] at hexplored
  cases hc : c.furthest with
  | none =>
    cases hd : d.furthest with
    | none => exact .none
    | some g =>
      rw [hc, hd] at hexplored
      exact absurd hexplored.symm (Nat.succ_ne_zero _)
  | some f =>
    cases hd : d.furthest with
    | none =>
      rw [hc, hd] at hexplored
      exact absurd hexplored (Nat.succ_ne_zero _)
    | some g =>
      rw [hc, hd] at hexplored
      exact .some ⟨Nat.succ.inj hexplored, trivial⟩

/-- Such runs report errors of one kind at one position. -/
theorem beyond_reports : (beyond 0).Reports Unrelated where
  fails h := Cursor.matches_errorFor h.1.furthest ⟨h.2.position, trivial⟩ h.2.isFatal
    (h.2.kind.trans h.2.kind'.symm)
  trailing := by
    rintro c d ⟨h, hpos⟩
    have hfail : (c.unmet "end of input").position = (d.unmet "end of input").position := by
      rw [c.position_unmet, d.position_unmet, hpos]
    have hfatal : (c.unmet "end of input").isFatal = (d.unmet "end of input").isFatal := by
      rw [c.isFatal_unmet, d.isFatal_unmet]
    exact Cursor.matches_errorFor h.furthest ⟨hfail, trivial⟩ hfatal rfl

/-! ## Failing idly -/

/-- **An idle failure**: it lies no further than `n`, and no more has been looked at than
before, or than is needed to fail at `n`. -/
structure Cursor.Idle (c : Cursor) (n : Nat) (f : Failure) (c' : Cursor) : Prop where
  tokens : c'.tokens = c.tokens
  isFatal : f.isFatal = false
  kind : f.kind = .unexpected
  position : f.position ≤ n
  explored_ge : c.explored ≤ c'.explored
  explored_le : c'.explored ≤ max c.explored (n + 1)

namespace Parser
variable {α β : Type} {p q : Parser α} {c d : Cursor} {n m : Nat}

/-- The parser fails idly. -/
def FailsIdly (p : Parser α) (c : Cursor) (n : Nat) : Prop :=
  ∃ f c', p c = .fail f c' ∧ c.Idle n f c'

/-- The parser reads the tokens up to `n`, all of which have been looked at. -/
def PassesIdly (p : Parser α) (c : Cursor) (n : Nat) : Prop :=
  ∃ v c', p c = .ok v c' ∧ c'.tokens = c.tokens ∧ c'.position = n ∧ c'.explored = c.explored

namespace FailsIdly

theorem mono (h : p.FailsIdly c n) (hn : n ≤ m) : p.FailsIdly c m := by
  obtain ⟨f, c', hp, htok, hsoft, hkind, hpos, hge, hle⟩ := h
  exact ⟨f, c', hp, htok, hsoft, hkind, by omega, hge, by omega⟩

theorem map (h : p.FailsIdly c n) (f : α → β) : (Parser.map f p).FailsIdly c n := by
  obtain ⟨g, c', hp, hidle⟩ := h
  exact ⟨g, c', by rw [Parser.map, hp, Outcome.map_fail], hidle⟩

theorem seq {q : Parser β} (h : p.FailsIdly c n) : (Parser.seq p q).FailsIdly c n := by
  obtain ⟨g, c', hp, hidle⟩ := h
  exact ⟨g, c', by rw [Parser.seq, hp, Outcome.bind_fail], hidle⟩

/-- A parser that fails behind a value. -/
theorem seq_of_ok {q : Parser β} {v : α} (hp : p c = .ok v d) (htok : d.tokens = c.tokens)
    (hexplored : d.explored = c.explored) (h : q.FailsIdly d n) :
    (Parser.seq p q).FailsIdly c n := by
  obtain ⟨g, d', hq, htok', hsoft, hkind, hpos, hge, hle⟩ := h
  refine ⟨g, d', ?_, htok'.trans htok, hsoft, hkind, hpos, by omega, by omega⟩
  rw [Parser.seq, hp, Outcome.bind_ok, hq, Outcome.map_fail]

/-- What fails at the first token. -/
theorem of_balks {P : Option Token → Prop} (h : p.Balks P) (hc : P c.peek?)
    (hn : c.position ≤ n) : p.FailsIdly c n := by
  obtain ⟨f, c', hp, hf⟩ := h c hc
  have hpos := hf.position
  have hexplored := hf.explored
  exact ⟨f, c', hp, hf.tokens, hf.isFatal, hf.kind, by omega, by omega, by omega⟩

end FailsIdly

end Parser

/-! ## Retreading -/

/-- The cursor stands where `c` stood before a run to `c'`, and all has been looked at that
this run has looked at. -/
structure Cursor.Repeats (d c c' : Cursor) : Prop where
  tokens : d.tokens = c.tokens
  position : d.position = c.position
  explored : c'.explored ≤ d.explored

theorem Cursor.Repeats.near {c c' d : Cursor} (h : d.Repeats c c')
    (hseen : c.explored ≤ c'.explored) : (beyond d.explored).near c d := by
  have hle := h.explored
  exact ⟨⟨h.tokens.symm, by omega⟩, h.position.symm⟩

/-- **One parser retreads another one**: where that one fails, it fails idly, and where that
one gives a value, it reads the same tokens or fails idly. -/
structure Parser.Retreads {α β : Type} (q : Parser β) (p : Parser α) : Prop where
  fail {c c' d : Cursor} {f : Failure} : p c = .fail f c' → f.isFatal = false →
    d.Repeats c c' → q.FailsIdly d f.position
  ok {c c' d : Cursor} {v : α} : p c = .ok v c' → d.Repeats c c' →
    q.PassesIdly d c'.position ∨ q.FailsIdly d c'.position

namespace Parser.Tracks
variable {α : Type} {p : Parser α} {hard : Prop} {c c' : Cursor} {f : Failure} {v : α}

/-- What a value leaves behind. -/
theorem of_ok (h : p.Tracks c.tokens hard) (hp : p c = .ok v c') :
    c'.tokens = c.tokens ∧ c.position ≤ c'.position ∧ c.explored ≤ c'.explored := by
  have hc := h c rfl
  rw [hp] at hc
  cases hc with
  | ok htok hpos hseen => exact ⟨htok, hpos, hseen⟩

/-- What a failure leaves behind. -/
theorem of_fail (h : p.Tracks c.tokens hard) (hp : p c = .fail f c') :
    c'.tokens = c.tokens ∧ c.position ≤ f.position ∧ f.position < c'.explored ∧
      c.explored ≤ c'.explored := by
  have hc := h c rfl
  rw [hp] at hc
  cases hc with
  | fail htok hpos hrec hseen _ => exact ⟨htok, hpos, hrec, hseen⟩

end Parser.Tracks

namespace Parser.Retreads
variable {α α' β β' γ δ : Type} {p : Parser α} {q : Parser β}

/-- **A parser retreads itself**, if its runs do not depend on what was looked at
before. -/
theorem self {V : α → α → Prop} (hp : ∀ all, p.Tracks all True)
    (hself : ∀ depth, (beyond depth).Similar V p p) : p.Retreads p where
  fail := by
    intro c c' d f hc hf hd
    obtain ⟨-, -, -, hseen⟩ := (hp c.tokens).of_fail hc
    have hle := hd.explored
    have hpair := hself d.explored c d (hd.near hseen)
    rw [hc] at hpair
    generalize hpd : p d = o at hpair
    cases hpair with
    | @fail _ g _ d' h =>
      obtain ⟨htok', -, -, hseen'⟩ := (hp d.tokens).of_fail hpd
      have hexplored := h.1.explored
      exact ⟨g, d', hpd, htok', h.2.isFatal.symm.trans hf, h.2.kind',
        Nat.le_of_eq h.2.position.symm, hseen', by omega⟩
  ok := by
    intro c c' d v hc hd
    obtain ⟨-, -, hseen⟩ := (hp c.tokens).of_ok hc
    have hle := hd.explored
    have hpair := hself d.explored c d (hd.near hseen)
    rw [hc] at hpair
    generalize hpd : p d = o at hpair
    cases hpair with
    | @ok _ w _ d' _ h =>
      obtain ⟨htok', -, hseen'⟩ := (hp d.tokens).of_ok hpd
      have hexplored := h.1.explored
      exact .inl ⟨w, d', hpd, htok', h.2.symm, by omega⟩

theorem map_left (h : q.Retreads p) (g : β → β') : (Parser.map g q).Retreads p where
  fail hc hf hd := (h.fail hc hf hd).map g
  ok := by
    intro c c' d v hc hd
    rcases h.ok hc hd with ⟨u, d', hq, hpass⟩ | hidle
    · exact .inl ⟨g u, d', by rw [Parser.map, hq, Outcome.map_ok], hpass⟩
    · exact .inr (hidle.map g)

theorem map_right (h : q.Retreads p) (f : α → α') : q.Retreads (Parser.map f p) where
  fail := by
    intro c c' d e hc he hd
    exact h.fail (Outcome.map_eq_fail hc) he hd
  ok := by
    intro c c' d v hc hd
    obtain ⟨w, c₁, hp, hw⟩ := Outcome.bind_eq_ok.mp hc
    cases hw
    exact h.ok hp hd

/-- What comes behind a value is retreaded behind the same tokens, or not reached. -/
theorem seq {p' : Parser α'} {q' : Parser β'} (h : q.Retreads p) (h' : q'.Retreads p')
    (hp : ∀ all, p.Tracks all True) (hp' : ∀ all, p'.Tracks all True) :
    (Parser.seq q q').Retreads (Parser.seq p p') where
  fail := by
    intro c c' d f hc hf hd
    rcases Outcome.bind_eq_fail hc with hpc | ⟨v, c₁, hpc, hv⟩
    · exact (h.fail hpc hf hd).seq
    have hp'c := Outcome.map_eq_fail hv
    obtain ⟨htok, -, -⟩ := (hp c.tokens).of_ok hpc
    obtain ⟨-, hpos, -, hseen⟩ := (hp' c₁.tokens).of_fail hp'c
    have hle := hd.explored
    rcases h.ok hpc ⟨hd.tokens, hd.position, by omega⟩ with ⟨w, d₁, hq, htok', hpos', hexp⟩ | hidle
    · refine .seq_of_ok hq htok' hexp (h'.fail hp'c hf ⟨?_, hpos', by omega⟩)
      rw [htok', hd.tokens, htok]
    · exact (hidle.mono hpos).seq
  ok := by
    intro c c' d v hc hd
    obtain ⟨w, c₁, hpc, hw⟩ := Outcome.bind_eq_ok.mp hc
    obtain ⟨w', c₂, hp'c, hw'⟩ := Outcome.bind_eq_ok.mp hw
    cases hw'
    obtain ⟨htok, -, -⟩ := (hp c.tokens).of_ok hpc
    obtain ⟨-, hpos, hseen⟩ := (hp' c₁.tokens).of_ok hp'c
    have hle := hd.explored
    rcases h.ok hpc ⟨hd.tokens, hd.position, by omega⟩ with ⟨u, d₁, hq, htok', hpos', hexp⟩ | hidle
    · have hd₁ : d₁.Repeats c₁ c' := ⟨by rw [htok', hd.tokens, htok], hpos', by omega⟩
      rcases h'.ok hp'c hd₁ with ⟨u', d₂, hq', htok₂, hpos₂, hexp₂⟩ | hidle
      · refine .inl ⟨(u, u'), d₂, ?_, htok₂.trans htok', hpos₂, hexp₂.trans hexp⟩
        rw [Parser.seq, hq, Outcome.bind_ok, hq', Outcome.map_ok]
      · exact .inr (.seq_of_ok hq htok' hexp hidle)
    · exact .inr (hidle.mono hpos).seq

/-- One token. -/
theorem token (decode : Token → Option α) (expected : String) :
    (Parser.token decode expected).Retreads (Parser.token decode expected) :=
  .self (V := Eq) (fun _ => .token decode expected) fun _ => .token decode expected

/-- What stands between two other parsers. -/
theorem between {opening closing : Parser γ} {opening' closing' : Parser δ} (h : q.Retreads p)
    (hopening : opening'.Retreads opening) (hclosing : closing'.Retreads closing)
    (hp : ∀ all, p.Tracks all True) (ho : ∀ all, opening.Tracks all True)
    (hc : ∀ all, closing.Tracks all True) :
    (Parser.map Prod.fst (Parser.seq (Parser.map Prod.snd (Parser.seq opening' q)) closing')).Retreads
      (Parser.map Prod.fst (Parser.seq (Parser.map Prod.snd (Parser.seq opening p)) closing)) := by
  have hinner := ((hopening.seq h ho hp).map_left Prod.snd).map_right Prod.snd
  refine ((hinner.seq hclosing (fun all => ?_) hc).map_left Prod.fst).map_right Prod.fst
  exact ((ho all).seq fun _ _ _ _ _ => hp all).map

end Parser.Retreads

/-! ## Failures on the way to a failure -/

/-- **From where `c` stands, the parser has failed on the way to the failure `f`**, not
further on, and what it has looked at is in the record. -/
def Parser.FailedBefore {α : Type} (p : Parser α) (c : Cursor) (f : Failure) (c' : Cursor) : Prop :=
  ∃ d g d', p d = .fail g d' ∧ g.isFatal = false ∧ d.tokens = c.tokens ∧
    d.position = c.position ∧ g.position ≤ f.position ∧ d'.explored ≤ c'.explored

namespace Parser
variable {α : Type} {p : Parser α} {ps : List (Parser α)} {c c' : Cursor} {f : Failure}

/-- Where several parsers fail one after the other, each of them has failed before. -/
theorem failedBefore_of_tryEach {failure : Option Failure} (hps : ∀ p ∈ ps, ∀ all, p.Tracks all True)
    (h : Parser.tryEach c.position ps failure c = .fail f c') (hf : f.isFatal = false) :
    (∀ g, failure = some g → g.position ≤ f.position) ∧ c.explored ≤ c'.explored ∧
      ∀ p ∈ ps, p.FailedBefore c f c' := by
  induction ps generalizing c failure with
  | nil =>
    cases h
    refine ⟨?_, Nat.le_refl _, nofun⟩
    rintro g rfl
    exact Nat.le_refl _
  | cons p ps ih =>
    obtain ⟨hp, hps⟩ := List.forall_mem_cons.mp hps
    rw [Parser.Tracks.tryEach_cons] at h
    obtain ⟨g, c₁, hpc, hg, hrest⟩ := Outcome.recover_eq_fail h hf
    obtain ⟨htok, -, -, hseen⟩ := (hp c.tokens).of_fail hpc
    obtain ⟨hcarry, hseen', hbefore⟩ := ih (c := c₁.restore c.position) hps hrest
    have hmax := hcarry _ rfl
    rw [Cursor.explored_restore] at hseen'
    refine ⟨?_, Nat.le_trans hseen hseen', List.forall_mem_cons.mpr ⟨?_, fun q hq => ?_⟩⟩
    · rintro g' rfl
      have hmerge := g'.position_merge g
      simp only [Parser.Tracks.carry] at hmax
      omega
    · refine ⟨c, g, c₁, hpc, hg, rfl, rfl, ?_, hseen'⟩
      cases failure with
      | none => exact hmax
      | some g' =>
        have hmerge := g'.position_merge g
        simp only [Parser.Tracks.carry] at hmax
        omega
    · obtain ⟨d, e, d', hq, he, htok', hpos, hle⟩ := hbefore q hq
      exact ⟨d, e, d', hq, he, htok'.trans htok, hpos, hle⟩

theorem failedBefore_of_label {name : String} (hps : ∀ p ∈ ps, ∀ all, p.Tracks all True)
    (h : Parser.label name (Parser.firstOf ps) c = .fail f c') (hf : f.isFatal = false) :
    ∀ p ∈ ps, p.FailedBefore c f c' := by
  obtain ⟨g, c₁, hfirst, hg, hlabel⟩ := Outcome.recover_eq_fail h hf
  have hkept : f.position = g.position ∧ c₁.explored ≤ c'.explored := by
    split at hlabel
    · cases hlabel
      exact ⟨rfl, by rw [Cursor.explored_remember]; exact Nat.le_max_left _ _⟩
    · cases hlabel
      exact ⟨rfl, Nat.le_refl _⟩
  obtain ⟨-, -, hbefore⟩ := failedBefore_of_tryEach hps hfirst hg
  intro p hp
  obtain ⟨d, e, d', hpd, he, htok, hpos, hle, hseen⟩ := hbefore p hp
  exact ⟨d, e, d', hpd, he, htok, hpos, hkept.1 ▸ hle, Nat.le_trans hseen hkept.2⟩

/-- What is tried again behind a failure fails idly, if it retreads a parser that has
failed before. -/
theorem Retreads.failsIdly {β : Type} {q : Parser β} (h : q.Retreads p)
    (hbefore : p.FailedBefore c f c') (htok : c'.tokens = c.tokens) :
    q.FailsIdly (c'.restore c.position) f.position := by
  obtain ⟨d, g, d', hp, hg, htok', hpos, hle, hseen⟩ := hbefore
  have hrepeats : (c'.restore c.position).Repeats d d' :=
    ⟨htok.trans htok'.symm, hpos.symm, hseen⟩
  exact (h.fail hp hg hrepeats).mono hle

end Parser

/-! ## Alternatives that are of no use -/

/-- **The second parser fails idly behind each failure of the first.** -/
def Parser.IdleBehind {α : Type} (q p : Parser α) : Prop :=
  ∀ c f c', p c = .fail f c' → f.isFatal = false → q.FailsIdly (c'.restore c.position) f.position

namespace RunRelation.Similar
variable {α α' : Type} {V : α → α' → Prop} {p q : Parser α} {p' q' : Parser α'}

/-- A second alternative that fails idly leaves the failure of the first. -/
theorem second_idle (hq : (beyond 0).Similar V q q') {f g : Failure} {c d : Cursor} {n : Nat}
    (hfails : (beyond 0).fails f c g d) (hf : f.isFatal = false) (hrec : g.position < d.explored)
    (hidle : q'.FailsIdly (d.restore n) g.position) :
    (beyond 0).Paired V ((q (c.restore n)).recover fun f' c' =>
      .fail (f.merge f') (c'.restore n)) (.fail g d) := by
  obtain ⟨g', d', hq', htok, hsoft, -, hpos, hge, hle⟩ := hidle
  have hpair := hq _ _ ((beyond 0).giveUp n hfails)
  rw [hq'] at hpair
  generalize q (c.restore n) = o at hpair
  cases hpair with
  | @fail f' _ c' _ h =>
    have hf' : f'.isFatal = false := h.2.isFatal.trans hsoft
    have hmerge := f.position_merge f'
    have hposf := hfails.2.position
    have hposf' := h.2.position
    have hexplored := h.1.explored
    simp only [Cursor.explored_restore] at hge hle
    rw [Outcome.recover_recoverable hf']
    refine .fail ⟨⟨h.1.tokens.trans htok, ?_⟩, ?_, ?_, ?_, hfails.2.kind'⟩
    · rw [Cursor.explored_restore]
      omega
    · omega
    · rw [Failure.isFatal_merge hf hf', ← hfails.2.isFatal, hf]
    · exact Failure.kind_merge hfails.2.kind h.2.kind
  | stalled => exact .stalled _

variable (hp : (beyond 0).Similar V p p') (hq : (beyond 0).Similar V q q')
  (htracks : ∀ all, p'.Tracks all True) (hidle : q'.IdleBehind p')

include hp hq htracks hidle

/-- A parser beside one that goes on to a second alternative, or stays with the failure. -/
theorem recover_idle {rescue : Cursor → Failure → Cursor → Outcome α}
    (hrescue : ∀ c f c', rescue c f c' = .fail f c' ∨
      rescue c f c' = (q (c'.restore c.position)).recover fun f' c'' =>
        .fail (f.merge f') (c''.restore c.position)) :
    (beyond 0).Similar V (fun c => (p c).recover (rescue c)) p' := by
  intro c d hnear
  have hpair := hp c d hnear
  show (beyond 0).Paired V ((p c).recover (rescue c)) (p' d)
  generalize p c = o at hpair
  generalize hp' : p' d = o' at hpair
  cases hpair with
  | ok hv h => exact .ok hv h
  | @fail f g c' d' h =>
    by_cases hf : f.isFatal = true
    · rw [Outcome.recover_fatal hf]
      exact .fail h
    · have hf' := Bool.eq_false_iff.mpr hf
      obtain ⟨-, -, hrec, -⟩ := (htracks d.tokens).of_fail hp'
      rw [Outcome.recover_recoverable hf']
      rcases hrescue c f c' with hstays | hgoes
      · rw [hstays]
        exact .fail h
      · rw [hgoes, hnear.2]
        exact hq.second_idle h hf' hrec (hidle d g d' hp' (h.2.isFatal.symm.trans hf'))
  | stalled => exact .stalled _

/-- **The first of two alternatives alone**, beside both. -/
theorem or_idle : (beyond 0).Similar V (Parser.or p q) p' :=
  recover_idle hp hq htracks hidle fun _ _ _ => .inr rfl

/-- The same where the second is tried only after some failures of the first. -/
theorem orGroup_idle : (beyond 0).Similar V (Parser.orGroup p q) p' := by
  refine recover_idle hp hq htracks hidle fun c f c' => ?_
  split
  · exact .inr rfl
  · exact .inl rfl

end RunRelation.Similar

end Fixity
