import Fixity.Proofs.Steps

/-! # What a parser reads

A run of a parser is described by the tokens it reads.  `done ts v` says that the
tokens `ts`, all of them, are read as `v`; `begun ts` says that `ts` are a
beginning after which the parser wants more.  A parser **reads** these two
(`Parser.Reads`) when, wherever it starts,

* a value that it returns is `done` by the tokens up to where it stops;
* a failure that it returns lies behind tokens that are `begun`;
* each position that it brings into the record lies behind tokens that are
  `begun`, or `done` and not more than those it has read; behind a recoverable
  failure there are only the former;
* it does not stall.

There is one lemma for each way of building parsers, with what is read of the
whole said in terms of what is read of the parts.  The bound `n` in `Reads` limits
the tokens that are left at the start.  A recursive parser is given itself with
the next smaller bound (`Parser.Reads.fix`), so whatever stands before a
recursive reference has to read a token.
-/
namespace Fixity

/-! ## Runs -/

/-- **What an outcome says of the tokens that were read.**  Fatal failures lie behind
tokens that are `hard`. -/
inductive Reading {α : Type} (all rest : List Token) (done : List Token → α → Prop)
    (begun hard : List Token → Prop) (c : Cursor) : Outcome α → Prop where
  /-- A value stands for the tokens up to where the run stops. -/
  | ok {v : α} {c' : Cursor} {ts r : List Token} (hrest : rest = ts ++ r) (hat : c'.At all r)
      (hdone : done ts v)
      (hrec : Recorded all rest (fun us => begun us ∨ us.length ≤ ts.length ∧ ∃ w, done us w)
        c c') : Reading all rest done begun hard c (.ok v c')
  /-- A failure lies behind tokens after which more was wanted. -/
  | fail {f : Failure} {c' : Cursor} {us : List Token} (htok : c'.tokens = all)
      (hbehind : Behind all rest us f.position) (hbegun : begun us)
      (hhard : f.isFatal = true → hard us) (hkind : f.kind = .unexpected)
      (hrec : Recorded all rest (fun us => begun us ∨ f.isFatal = true ∧ ∃ w, done us w) c c') :
      Reading all rest done begun hard c (.fail f c')

/-- **A parser reads** what is `done` and `begun` wherever fewer than `n` tokens are
left.  It does not fail fatally before it has read a token. -/
def Parser.Reads {α : Type} (p : Parser α) (done : List Token → α → Prop)
    (begun : List Token → Prop) (n : Nat) : Prop :=
  ∀ all rest c, c.At all rest → rest.length < n →
    Reading all rest done begun (· ≠ []) c (p c)

/-- Two phrases in a row, both complete. -/
def Joined {α β : Type} (done : List Token → α → Prop) (done' : List Token → β → Prop)
    (ts : List Token) (v : α × β) : Prop :=
  ∃ us vs, ts = us ++ vs ∧ done us v.1 ∧ done' vs v.2

/-- Two phrases in a row, the first of them begun, or complete and the second
begun. -/
def Followed {α : Type} (begun : List Token → Prop) (done : List Token → α → Prop)
    (begun' : List Token → Prop) (ts : List Token) : Prop :=
  begun ts ∨ ∃ us v vs, ts = us ++ vs ∧ done us v ∧ begun' vs

namespace Reading
variable {α β : Type} {all rest : List Token} {done done' : List Token → α → Prop}
  {begun begun' hard hard' : List Token → Prop} {c c₁ : Cursor} {o : Outcome α}

/-- A change of the value. -/
theorem map {done' : List Token → β → Prop} {f : α → β}
    (h : Reading all rest done begun hard c o)
    (hd : ∀ ts v, done ts v → done' ts (f v)) (hb : ∀ ts, begun ts → begun' ts) :
    Reading all rest done' begun' hard c (o.map f) := by
  cases h with
  | ok hrest hat hdone hrec =>
    refine .ok hrest hat (hd _ _ hdone) (hrec.mono ?_)
    rintro us (hus | ⟨hle, w, hw⟩)
    · exact Or.inl (hb us hus)
    · exact Or.inr ⟨hle, f w, hd us w hw⟩
  | fail htok hbehind hbegun hhard hkind hrec =>
    refine .fail htok hbehind (hb _ hbegun) hhard hkind (hrec.mono ?_)
    rintro us (hus | ⟨hf, w, hw⟩)
    · exact Or.inl (hb us hus)
    · exact Or.inr ⟨hf, f w, hd us w hw⟩

theorem mono (h : Reading all rest done begun hard c o) (hd : ∀ ts v, done ts v → done' ts v)
    (hb : ∀ ts, begun ts → begun' ts) : Reading all rest done' begun' hard c o := by
  rw [← Outcome.map_id o]
  exact h.map hd hb

/-- A run may count as started earlier, when what was recorded before it was
`begun`. -/
theorem rebase (h : Reading all rest done begun hard c₁ o)
    (hrec : Recorded all rest begun c c₁) : Reading all rest done begun hard c o := by
  cases h with
  | ok hrest hat hdone hrec' =>
    exact .ok hrest hat hdone ((hrec.mono fun _ => Or.inl).trans hrec')
  | fail htok hbehind hbegun hhard hkind hrec' =>
    exact .fail htok hbehind hbegun hhard hkind ((hrec.mono fun _ => Or.inl).trans hrec')

/-- **A run behind another.**  It starts behind the tokens `ts`; what was recorded
before it was `seen`. -/
theorem after {done' : List Token → β → Prop} {seen : List Token → Prop} {ts r : List Token}
    {f : α → β} (h : Reading all r done begun hard c₁ o) (hrest : rest = ts ++ r)
    (hd : ∀ us v, done us v → done' (ts ++ us) (f v)) (hb : ∀ us, begun us → begun' (ts ++ us))
    (hh : ∀ us, hard us → hard' (ts ++ us)) (hrec : Recorded all rest seen c c₁)
    (hok : ∀ us, seen us → begun' us ∨ us.length ≤ ts.length ∧ ∃ w, done' us w)
    (hfail : ∀ g c', o = .fail g c' → ∀ us, seen us →
      begun' us ∨ g.isFatal = true ∧ ∃ w, done' us w) :
    Reading all rest done' begun' hard' c (o.map f) := by
  cases h with
  | ok hr hat hdone hrec' =>
    refine .ok (by rw [hrest, hr, List.append_assoc]) hat (hd _ _ hdone) ?_
    refine (hrec.mono fun us hus => ?_).trans (hrec'.append hrest fun us hus => ?_)
    · rcases hok us hus with hbus | ⟨hle, hw⟩
      · exact Or.inl hbus
      · refine Or.inr ⟨?_, hw⟩
        rw [List.length_append]
        omega
    · rcases hus with hbus | ⟨hle, w, hw⟩
      · exact Or.inl (hb us hbus)
      · refine Or.inr ⟨?_, f w, hd us w hw⟩
        rw [List.length_append, List.length_append]
        omega
  | fail htok hbehind hbegun hhard hkind hrec' =>
    refine .fail htok (hbehind.append hrest) (hb _ hbegun) (fun hf => hh _ (hhard hf)) hkind ?_
    refine (hrec.mono (hfail _ _ rfl)).trans (hrec'.append hrest fun us hus => ?_)
    rcases hus with hbus | ⟨hf, w, hw⟩
    · exact Or.inl (hb us hbus)
    · exact Or.inr ⟨hf, f w, hd us w hw⟩

/-- Going on after a recoverable failure; a fatal one stays. -/
theorem recover {next : Failure → Cursor → Outcome α}
    (h : Reading all rest done begun hard c o) (hh : ∀ us, hard us → hard' us)
    (hnext : ∀ f c' us, f.isFatal = false → c'.tokens = all → Behind all rest us f.position →
      begun us → f.kind = .unexpected → Recorded all rest begun c c' →
      Reading all rest done begun hard' c (next f c')) :
    Reading all rest done begun hard' c (o.recover next) := by
  cases h with
  | ok hrest hat hdone hrec => exact .ok hrest hat hdone hrec
  | @fail f c' us htok hbehind hbegun hhard hkind hrec =>
    cases hf : f.isFatal with
    | true =>
      rw [Outcome.recover_fatal hf]
      exact .fail htok hbehind hbegun (fun h => hh us (hhard h)) hkind hrec
    | false =>
      -- A recoverable failure has left nothing but beginnings in the record.
      rw [Outcome.recover_recoverable hf]
      refine hnext f c' us hf htok hbehind hbegun hkind (hrec.mono ?_)
      rintro us (hus | ⟨hf', -⟩)
      · exact hus
      · rw [hf] at hf'
        cases hf'

/-- A recoverable failure. -/
theorem soft {f : Failure} {us : List Token} (hf : f.isFatal = false) (htok : c₁.tokens = all)
    (hbehind : Behind all rest us f.position) (hbegun : begun us) (hkind : f.kind = .unexpected)
    (hrec : Recorded all rest begun c c₁) : Reading all rest done begun hard c (.fail f c₁) := by
  refine .fail htok hbehind hbegun (fun h => ?_) hkind (hrec.mono fun _ => Or.inl)
  rw [hf] at h
  cases h

end Reading

namespace Parser.Reads
variable {α β : Type} {p q : Parser α} {n : Nat} {done : List Token → α → Prop}
  {begun hard : List Token → Prop}

theorem mono {done' : List Token → α → Prop} {begun' : List Token → Prop}
    (h : p.Reads done begun n) (hd : ∀ ts v, done ts v → done' ts v)
    (hb : ∀ ts, begun ts → begun' ts) : p.Reads done' begun' n :=
  fun all rest c hc hn => (h all rest c hc hn).mono hd hb

theorem of_le {m : Nat} (h : p.Reads done begun n) (hm : m ≤ n) : p.Reads done begun m :=
  fun all rest c hc hn => h all rest c hc (Nat.lt_of_lt_of_le hn hm)

theorem map {done' : List Token → β → Prop} {begun' : List Token → Prop} {f : α → β}
    (h : p.Reads done begun n) (hd : ∀ ts v, done ts v → done' ts (f v))
    (hb : ∀ ts, begun ts → begun' ts) : (Parser.map f p).Reads done' begun' n :=
  fun all rest c hc hn => (h all rest c hc hn).map hd hb

/-! ## One token -/

/-- A failure at the cursor, recorded, is one at which nothing has been read. -/
theorem reading_reject {all rest : List Token} {c c₁ : Cursor} (expected : String)
    (hc : c₁.At all rest) (hrec : Recorded all rest begun c c₁) (hnil : begun []) :
    Reading all rest done begun hard c (reject expected c₁) := by
  have hb : Behind all rest [] (c₁.unmet expected).position := by
    rw [Cursor.position_unmet]
    exact hc.behind_nil
  exact .soft (Cursor.isFatal_unmet c₁ expected) hc.tokens hb hnil (Cursor.kind_unmet c₁ expected)
    (hrec.trans (.remember hb hnil))

theorem token (decode : Token → Option α) (expected : String) :
    (Parser.token decode expected).Reads (fun ts v => ∃ t, ts = [t] ∧ decode t = some v)
      (fun ts => ts = []) n := by
  intro all rest c hc _
  unfold Parser.token
  rw [hc.peek?]
  cases rest with
  | nil => exact reading_reject expected hc (.of_eq rfl) rfl
  | cons t r =>
    simp only [List.head?_cons, Option.bind_some]
    cases hd : decode t with
    | none => exact reading_reject expected hc (.of_eq rfl) rfl
    | some v => exact .ok rfl hc.advance ⟨t, rfl, hd⟩ (.of_eq (Cursor.furthest_advance c))

/-- One token that is fixed. -/
theorem exactly (t : Token) (v : α) (expected : String) :
    (Parser.token (fun t' => if t' = t then some v else none) expected).Reads
      (fun ts _ => ts = [t]) (fun ts => ts = []) n := by
  refine (token _ _).mono ?_ fun _ => id
  rintro ts _ ⟨t', rfl, ht⟩
  split at ht
  · rename_i h
    rw [h]
  · cases ht

/-- One token of which only some values are accepted. -/
theorem filter_token (decode : Token → Option α) (accepts : α → Bool) (expected label : String) :
    (Parser.filter accepts label (Parser.token decode expected)).Reads
      (fun ts v => ∃ t, ts = [t] ∧ decode t = some v ∧ accepts v = true) (fun ts => ts = []) n := by
  intro all rest c hc _
  unfold Parser.filter Parser.token
  rw [hc.peek?]
  cases rest with
  | nil => exact reading_reject expected hc (.of_eq rfl) rfl
  | cons t r =>
    simp only [List.head?_cons, Option.bind_some]
    cases hd : decode t with
    | none => exact reading_reject expected hc (.of_eq rfl) rfl
    | some v =>
      simp only [Outcome.bind_ok]
      split
      · rename_i ha
        exact .ok rfl hc.advance ⟨t, rfl, hd, ha⟩ (.of_eq (Cursor.furthest_advance c))
      · exact reading_reject label (hc.restore hc.advance.tokens)
          (.of_eq (Cursor.furthest_advance c)) rfl

/-! ## Sequences -/

/-- **One parser, then another.**  The first reads a token or more, so the second is
run where fewer are left; it wants something before it has read anything, and may
fail fatally at once. -/
theorem seq_hard {p : Parser α} {q : Parser β} {done' : List Token → β → Prop}
    {begun' : List Token → Prop} (hp : p.Reads done begun n)
    (hq : ∀ all rest c, c.At all rest → rest.length < n - 1 →
      Reading all rest done' begun' hard c (q c))
    (hne : ∀ ts v, done ts v → ts ≠ []) (hnil : begun' []) :
    (Parser.seq p q).Reads (Joined done done') (Followed begun done begun') n := by
  intro all rest c hc hn
  show Reading all rest _ _ _ c ((p c).bind fun a c => (q c).map fun b => (a, b))
  have ho := hp all rest c hc hn
  generalize p c = o at ho
  cases ho with
  | @ok v c' ts r hrest hat hdone hrec =>
    have hts : ts ≠ [] := hne ts v hdone
    have hlen : r.length < n - 1 := by
      have := List.length_pos_iff.mpr hts
      rw [hrest, List.length_append] at hn
      omega
    -- What the first parser recorded is a beginning of the whole.
    have hseen : ∀ us, (begun us ∨ us.length ≤ ts.length ∧ ∃ w, done us w) →
        Followed begun done begun' us := by
      rintro us (hus | ⟨-, w, hw⟩)
      · exact Or.inl hus
      · exact Or.inr ⟨us, w, [], (List.append_nil us).symm, hw, hnil⟩
    exact (hq all r c' hat hlen).after hrest (fun us w hw => ⟨ts, us, rfl, hdone, hw⟩)
      (fun us hus => Or.inr ⟨ts, v, us, rfl, hdone, hus⟩) (fun us _ => by simp [hts]) hrec
      (fun us hus => Or.inl (hseen us hus)) (fun _ _ _ us hus => Or.inl (hseen us hus))
  | fail htok hbehind hbegun hhard hkind hrec =>
    refine .fail htok hbehind (Or.inl hbegun) hhard hkind (hrec.mono ?_)
    rintro us (hus | ⟨-, w, hw⟩)
    · exact Or.inl (Or.inl hus)
    · exact Or.inl (Or.inr ⟨us, w, [], (List.append_nil us).symm, hw, hnil⟩)

theorem seq {p : Parser α} {q : Parser β} {done' : List Token → β → Prop}
    {begun' : List Token → Prop} (hp : p.Reads done begun n) (hq : q.Reads done' begun' (n - 1))
    (hne : ∀ ts v, done ts v → ts ≠ []) (hnil : begun' []) :
    (Parser.seq p q).Reads (Joined done done') (Followed begun done begun') n :=
  hp.seq_hard hq hne hnil

/-- One parser, and then another to which the first commits. -/
theorem seq_commit {p : Parser α} {q : Parser β} {done' : List Token → β → Prop}
    {begun' : List Token → Prop} (hp : p.Reads done begun n) (hq : q.Reads done' begun' (n - 1))
    (hne : ∀ ts v, done ts v → ts ≠ []) (hnil : begun' []) :
    (Parser.seq p (Parser.commit q)).Reads (Joined done done') (Followed begun done begun') n := by
  have hq' : ∀ all rest c, c.At all rest → rest.length < n - 1 →
      Reading all rest done' begun' (fun _ => True) c (Parser.commit q c) := by
    intro all rest c hc hn
    refine (hq all rest c hc hn).recover (fun _ _ => trivial) ?_
    intro f c' us _ htok hbehind hus hkind hrec
    exact .fail htok hbehind hus (fun _ => trivial) hkind (hrec.mono fun _ => Or.inl)
  exact hp.seq_hard hq' hne hnil

/-- What follows a token, where the token alone is no value. -/
theorem map_snd {γ : Type} {left : Parser γ} {q : Parser α} {l : Token}
    (h : (Parser.seq left q).Reads (Joined (fun ts _ => ts = [l]) done)
      (Followed (fun ts => ts = []) (fun ts (_ : γ) => ts = [l]) begun) n) :
    (Parser.map Prod.snd (Parser.seq left q)).Reads (fun ts v => ∃ us, ts = l :: us ∧ done us v)
      (fun ts => ts = [] ∨ ∃ us, ts = l :: us ∧ begun us) n := by
  refine h.map ?_ ?_
  · rintro ts ⟨_, v⟩ ⟨us, vs, rfl, rfl, hv⟩
    exact ⟨vs, rfl, hv⟩
  · rintro ts (rfl | ⟨us, _, vs, rfl, rfl, hvs⟩)
    · exact Or.inl rfl
    · exact Or.inr ⟨vs, rfl, hvs⟩

/-- A parser behind a token. -/
theorem keepRight {γ : Type} {left : Parser γ} {l : Token}
    (hl : left.Reads (fun ts _ => ts = [l]) (fun ts => ts = []) n)
    (hp : p.Reads done begun (n - 1)) (hnil : begun []) :
    (Parser.map Prod.snd (Parser.seq left p)).Reads (fun ts v => ∃ us, ts = l :: us ∧ done us v)
      (fun ts => ts = [] ∨ ∃ us, ts = l :: us ∧ begun us) n :=
  map_snd (hl.seq hp (by simp) hnil)

/-- A parser to which a token commits. -/
theorem keepRight_commit {γ : Type} {left : Parser γ} {l : Token}
    (hl : left.Reads (fun ts _ => ts = [l]) (fun ts => ts = []) n)
    (hp : p.Reads done begun (n - 1)) (hnil : begun []) :
    (Parser.map Prod.snd (Parser.seq left (Parser.commit p))).Reads
      (fun ts v => ∃ us, ts = l :: us ∧ done us v)
      (fun ts => ts = [] ∨ ∃ us, ts = l :: us ∧ begun us) n :=
  map_snd (hl.seq_commit hp (by simp) hnil)

/-- A parser before a token. -/
theorem keepLeft {γ : Type} {right : Parser γ} {r : Token} (hp : p.Reads done begun n)
    (hr : right.Reads (fun ts _ => ts = [r]) (fun ts => ts = []) n)
    (hne : ∀ ts v, done ts v → ts ≠ []) :
    (Parser.map Prod.fst (Parser.seq p right)).Reads
      (fun ts v => ∃ us, ts = us ++ [r] ∧ done us v)
      (fun ts => begun ts ∨ ∃ v, done ts v) n := by
  refine (hp.seq (hr.of_le (Nat.sub_le n 1)) hne rfl).map ?_ ?_
  · rintro ts ⟨v, _⟩ ⟨us, vs, rfl, hv, rfl⟩
    exact ⟨us, rfl, hv⟩
  · rintro ts (hts | ⟨us, v, vs, rfl, hv, rfl⟩)
    · exact Or.inl hts
    · rw [List.append_nil]
      exact Or.inr ⟨v, hv⟩

/-- A parser between two tokens. -/
theorem between {γ δ : Type} {left : Parser γ} {right : Parser δ} {l r : Token}
    (hl : left.Reads (fun ts _ => ts = [l]) (fun ts => ts = []) n)
    (hr : right.Reads (fun ts _ => ts = [r]) (fun ts => ts = []) n)
    (hp : p.Reads done begun (n - 1)) (hnil : begun []) :
    (Parser.map Prod.fst (Parser.seq (Parser.map Prod.snd (Parser.seq left p)) right)).Reads
      (fun ts v => ∃ us, ts = l :: (us ++ [r]) ∧ done us v)
      (fun ts => ts = [] ∨ ∃ us, ts = l :: us ∧ (begun us ∨ ∃ v, done us v)) n := by
  refine ((hl.keepRight hp hnil).keepLeft hr ?_).mono ?_ ?_
  · rintro ts v ⟨us, rfl, -⟩
    exact List.cons_ne_nil _ _
  · rintro ts v ⟨us, rfl, vs, rfl, hv⟩
    exact ⟨vs, rfl, hv⟩
  · rintro ts ((rfl | ⟨us, rfl, hus⟩) | ⟨v, us, rfl, hv⟩)
    · exact Or.inl rfl
    · exact Or.inr ⟨us, rfl, Or.inl hus⟩
    · exact Or.inr ⟨us, rfl, Or.inr ⟨v, hv⟩⟩

/-! ## Choices -/

/-- The failure of two alternatives lies where one of them lies. -/
theorem behind_merge {all rest us vs : List Token} {f g : Failure}
    (hf : Behind all rest us f.position) (hus : begun us)
    (hg : Behind all rest vs g.position) (hvs : begun vs) :
    ∃ ts, Behind all rest ts (f.merge g).position ∧ begun ts := by
  rw [Failure.position_merge]
  rcases Nat.le_total f.position g.position with hle | hle
  · exact ⟨vs, by rwa [Nat.max_eq_right hle], hvs⟩
  · exact ⟨us, by rwa [Nat.max_eq_left hle], hus⟩

/-- The second of two alternatives, after a failure `f` of the first. -/
theorem reading_second {all rest us : List Token} {c c₁ : Cursor} {f : Failure}
    (hq : q.Reads done begun n) (hc : c.At all rest) (hn : rest.length < n)
    (hsoft : f.isFatal = false) (htok : c₁.tokens = all) (hf : Behind all rest us f.position)
    (hus : begun us) (hkind : f.kind = .unexpected) (hrec : Recorded all rest begun c c₁) :
    Reading all rest done begun (· ≠ []) c ((q (c₁.restore c.position)).recover fun g c₂ =>
      .fail (f.merge g) (c₂.restore c.position)) := by
  refine ((hq all rest _ (hc.restore htok) hn).rebase hrec).recover (fun _ => id) ?_
  intro g c₂ vs hg htok₂ hbehind hvs hkind₂ hrec₂
  obtain ⟨ts, hts, hbegun⟩ := behind_merge hf hus hbehind hvs
  exact .soft (Failure.isFatal_merge hsoft hg) htok₂ hts hbegun (Failure.kind_merge hkind hkind₂) hrec₂

theorem or (hp : p.Reads done begun n) (hq : q.Reads done begun n) :
    (Parser.or p q).Reads done begun n := by
  intro all rest c hc hn
  refine (hp all rest c hc hn).recover (fun _ => id) ?_
  intro f c₁ us hf htok hbehind hus hkind hrec
  exact reading_second hq hc hn hf htok hbehind hus hkind hrec

/-- An operand or a group: whether the group is tried does not matter here. -/
theorem orGroup (hp : p.Reads done begun n) (hq : q.Reads done begun n) :
    (Parser.orGroup p q).Reads done begun n := by
  intro all rest c hc hn
  refine (hp all rest c hc hn).recover (fun _ => id) ?_
  intro f c₁ us hf htok hbehind hus hkind hrec
  split
  · exact reading_second hq hc hn hf htok hbehind hus hkind hrec
  · exact .soft hf htok hbehind hus hkind hrec

theorem label (name : String) (hp : p.Reads done begun n) :
    (Parser.label name p).Reads done begun n := by
  intro all rest c hc hn
  refine (hp all rest c hc hn).recover (fun _ => id) ?_
  intro f c' us hf htok hbehind hus hkind hrec
  split
  · have hrec' : Recorded all rest begun c' (c'.remember { f with expected := [name] }) :=
      .remember hbehind hus
    exact .soft hf htok hbehind hus hkind (hrec.trans hrec')
  · exact .soft hf htok hbehind hus hkind hrec

/-- Parsers that are tried in order, after a failure of those before. -/
theorem reading_tryEach {all rest : List Token} {c c₁ : Cursor} {ps : List (Parser α)}
    (hps : ∀ p ∈ ps, p.Reads done begun n) (hnil : begun []) (hc : c.At all rest)
    (hn : rest.length < n) {failure : Option Failure}
    (hf : ∀ f, failure = some f → f.isFatal = false ∧ f.kind = .unexpected ∧
      ∃ us, Behind all rest us f.position ∧ begun us)
    (hc₁ : c₁.At all rest) (hrec : Recorded all rest begun c c₁) :
    Reading all rest done begun (· ≠ []) c (tryEach c.position ps failure c₁) := by
  induction ps generalizing failure c₁ with
  | nil =>
    cases failure with
    | none =>
      refine .soft (Cursor.isFatal_unmet c₁ _) hc₁.tokens ?_ hnil (Cursor.kind_unmet c₁ _) hrec
      show Behind all rest [] (c₁.unmet _).position
      rw [Cursor.position_unmet]
      exact hc₁.behind_nil
    | some f =>
      obtain ⟨hsoft, hkind, us, hbehind, hus⟩ := hf f rfl
      exact .soft hsoft hc₁.tokens hbehind hus hkind hrec
  | cons p ps ih =>
    have hp := hps p List.mem_cons_self
    refine ((hp all rest c₁ hc₁ hn).rebase hrec).recover (fun _ => id) ?_
    intro g c₂ us hg htok hbehind hus hkind hrec₂
    refine ih (fun p hp => hps p (List.mem_cons_of_mem _ hp)) ?_ (hc.restore htok) hrec₂
    -- The failure that is carried on lies where that of one of the parsers lies.
    intro f hfailure
    cases failure with
    | none =>
      cases hfailure
      exact ⟨hg, hkind, us, hbehind, hus⟩
    | some previous =>
      cases hfailure
      obtain ⟨hsoft, hkind₀, vs, hbehind₀, hvs⟩ := hf previous rfl
      exact ⟨Failure.isFatal_merge hsoft hg, Failure.kind_merge hkind₀ hkind,
        behind_merge hbehind₀ hvs hbehind hus⟩

theorem firstOf {ps : List (Parser α)} (hps : ∀ p ∈ ps, p.Reads done begun n)
    (hnil : begun []) : (Parser.firstOf ps).Reads done begun n := by
  intro all rest c hc hn
  exact reading_tryEach hps hnil hc hn (by simp) hc (.of_eq rfl)

/-! ## Loops -/

/-- What is seen of an item is seen of the items together: one item is complete by
itself, and a beginning at which no token was read is no beginning of the items. -/
theorem seen_of_item {many : List Token → β → Prop} {began : List Token → Prop} {v : β}
    (P : List Token → Prop) (hP : P []) (hnil : many [] v)
    (hone : ∀ us w, done us w → ∃ w', many us w')
    (hitem : ∀ us, begun us → us ≠ [] → began us) (us : List Token)
    (h : begun us ∨ P us ∧ ∃ w, done us w) : began us ∨ P us ∧ ∃ w, many us w := by
  rcases h with hus | ⟨hp, w, hw⟩
  · by_cases h : us = []
    · subst h
      exact Or.inr ⟨hP, v, hnil⟩
    · exact Or.inl (hitem us hus h)
  · exact Or.inr ⟨hp, hone us w hw⟩

/-- **The end of a loop.**  An item that fails recoverably ends the loop where it
started. -/
theorem reading_stop {all rest : List Token} {c c' : Cursor} {f : Failure}
    {many : List Token → β → Prop} {began : List Token → Prop} {v : β}
    (h : Reading all rest done begun (· ≠ []) c (.fail f c')) (hc : c.At all rest)
    (hnil : many [] v) (hone : ∀ us w, done us w → ∃ w', many us w')
    (hitem : ∀ us, begun us → us ≠ [] → began us) :
    Reading all rest many began (· ≠ []) c
      (if f.isFatal = true then .fail f c' else .ok v (c'.restore c.position)) := by
  cases h with
  | @fail _ _ us htok hbehind hus hhard hkind hrec =>
    split
    · rename_i hf
      -- A fatal failure lies inside an item, which is a beginning of the items.
      exact .fail htok hbehind (hitem us hus (hhard hf)) hhard hkind
        (hrec.mono (seen_of_item _ hf hnil hone hitem))
    · rename_i hf
      refine .ok rfl (hc.restore htok) hnil (hrec.mono ?_)
      rintro vs (hvs | ⟨hf', -⟩)
      · exact seen_of_item (·.length ≤ 0) (Nat.zero_le _) hnil hone hitem vs (Or.inl hvs)
      · exact absurd hf' hf

/-- A loop recovers from every failure but a fatal one. -/
theorem isFatal_of_collect {turns : Nat} {c c' : Cursor} {f : Failure}
    (h : collect p turns c = .fail f c') : f.isFatal = true := by
  induction turns generalizing c with
  | zero => cases h
  | succ turns ih =>
    cases hp : p c with
    | ok v c₁ =>
      rw [collect_ok hp] at h
      cases hr : collect p turns c₁ with
      | ok vs c₂ =>
        rw [hr] at h
        cases h
      | fail g c₂ =>
        rw [hr] at h
        cases h
        exact ih hr
      | stalled =>
        rw [hr] at h
        cases h
    | fail g c₁ =>
      rw [collect_fail hp] at h
      split at h
      · rename_i hg
        cases h
        exact hg
      · cases h
    | stalled =>
      rw [collect_stalled hp] at h
      cases h

/-- **Items until one fails.**  Of the item that is not read, nothing counts as
begun unless a token of it was read. -/
theorem reading_collect {many : List Token → List α → Prop} {began : List Token → Prop}
    (hp : p.Reads done begun n) (hne : ∀ ts v, done ts v → ts ≠ []) (hnil : many [] [])
    (hcons : ∀ ts v us vs, done ts v → many us vs → many (ts ++ us) (v :: vs))
    (hitem : ∀ ts, begun ts → ts ≠ [] → began ts)
    (hnext : ∀ ts v us, done ts v → began us → began (ts ++ us))
    {turns : Nat} {all rest : List Token} {c : Cursor} (hc : c.At all rest) (hn : rest.length < n)
    (hturns : rest.length < turns) :
    Reading all rest many began (· ≠ []) c (collect p turns c) := by
  have hone : ∀ us w, done us w → ∃ ws, many us ws := by
    intro us w hw
    exact ⟨[w], by simpa using hcons us w [] [] hw hnil⟩
  induction turns generalizing rest c with
  | zero => exact absurd hturns (Nat.not_lt_zero _)
  | succ turns ih =>
    have ho := hp all rest c hc hn
    cases hpc : p c with
    | ok v c' =>
      rw [hpc] at ho
      rw [collect_ok hpc]
      cases ho with
      | @ok _ _ ts r hrest hat hdone hrec =>
        -- An item is not empty, so the next turn has fewer tokens left.
        have hts : ts ≠ [] := hne ts v hdone
        have hlen : r.length < rest.length := by
          have := List.length_pos_iff.mpr hts
          rw [hrest, List.length_append]
          omega
        refine (ih hat (by omega) (by omega)).after hrest (fun us vs => hcons ts v us vs hdone)
          (fun us => hnext ts v us hdone) (fun us _ => by simp [hts]) hrec
          (seen_of_item (·.length ≤ ts.length) (Nat.zero_le _) hnil hone hitem) ?_
        intro g c₂ hg us hus
        have hf := isFatal_of_collect hg
        exact seen_of_item (fun _ => g.isFatal = true) hf hnil hone hitem us
          (hus.imp_right fun hw => ⟨hf, hw.2⟩)
    | fail f c' =>
      rw [hpc] at ho
      rw [collect_fail hpc]
      exact reading_stop ho hc hnil hone hitem
    | stalled =>
      rw [hpc] at ho
      cases ho

/-- **The loop behind an item.**  It may end at once, so what the item alone stands
for is complete (`hseen`). -/
theorem reading_loop {γ : Type} {all rest : List Token} {c c' : Cursor} {v : α}
    {many : List Token → β → Prop} {began : List Token → Prop} {done' : List Token → γ → Prop}
    {begun' : List Token → Prop} {o : Outcome β} {f : β → γ}
    (h : Reading all rest done begun (· ≠ []) c (.ok v c'))
    (hloop : ∀ ts r, rest = ts ++ r → c'.At all r → Reading all r many began (· ≠ []) c' o)
    (hfatal : ∀ g c'', o = .fail g c'' → g.isFatal = true)
    (hd : ∀ ts us w, done ts v → many us w → done' (ts ++ us) (f w))
    (hseen : ∀ P : List Token → Prop, P [] → ∀ us, (begun us ∨ P us ∧ ∃ w, done us w) →
      begun' us ∨ P us ∧ ∃ w, done' us w)
    (hb : ∀ ts us, done ts v → began us → begun' (ts ++ us)) :
    Reading all rest done' begun' (· ≠ []) c (o.map f) := by
  cases h with
  | @ok _ _ ts r hrest hat hdone hrec =>
    refine (hloop ts r hrest hat).after hrest (fun us w => hd ts us w hdone)
      (fun us => hb ts us hdone) (fun us hus => by simp [hus]) hrec
      (hseen (·.length ≤ ts.length) (Nat.zero_le _)) ?_
    intro g c'' hg us hus
    have hf := hfatal g c'' hg
    exact hseen (fun _ => g.isFatal = true) hf us (hus.imp_right fun hw => ⟨hf, hw.2⟩)

/-- **An item and the loop behind it.** -/
theorem reading_bind_loop {γ : Type} {all rest : List Token} {c : Cursor} {o : Outcome α}
    {many : α → List Token → β → Prop} {began : List Token → Prop}
    {done' : List Token → γ → Prop} {begun' : List Token → Prop} {loop : α → Parser β}
    {f : α → β → γ} (h : Reading all rest done begun (· ≠ []) c o)
    (hloop : ∀ v c' ts r, rest = ts ++ r → c'.At all r →
      Reading all r (many v) began (· ≠ []) c' (loop v c'))
    (hfatal : ∀ v c' g c'', loop v c' = .fail g c'' → g.isFatal = true)
    (hd : ∀ ts v us w, done ts v → many v us w → done' (ts ++ us) (f v w))
    (hend : ∀ ts v, done ts v → ∃ w, done' ts w) (hb : ∀ us, begun us → begun' us)
    (hb' : ∀ ts v us, done ts v → began us → begun' (ts ++ us)) :
    Reading all rest done' begun' (· ≠ []) c (o.bind fun v c' => (loop v c').map (f v)) := by
  have hseen : ∀ (P : List Token → Prop) us, (begun us ∨ P us ∧ ∃ w, done us w) →
      begun' us ∨ P us ∧ ∃ w, done' us w := by
    rintro P us (hus | ⟨hp, w, hw⟩)
    · exact Or.inl (hb us hus)
    · exact Or.inr ⟨hp, hend us w hw⟩
  cases o with
  | ok v c' =>
    exact reading_loop h (hloop v c') (hfatal v c') (fun ts us w => hd ts v us w)
      (fun P _ => hseen P) (fun ts us => hb' ts v us)
  | fail g c' =>
    cases h with
    | fail htok hbehind hbegun hhard hkind hrec =>
      exact .fail htok hbehind (hb _ hbegun) hhard hkind (hrec.mono (hseen _))
  | stalled => cases h

/-- One or more items. -/
theorem many1 (many : List Token → List α → Prop) (began : List Token → Prop)
    {done' : List Token → α × List α → Prop} {begun' : List Token → Prop} (spare : Nat)
    (hp : p.Reads done begun n) (hne : ∀ ts v, done ts v → ts ≠ []) (hnil : many [] [])
    (hcons : ∀ ts v us vs, done ts v → many us vs → many (ts ++ us) (v :: vs))
    (hitem : ∀ ts, begun ts → ts ≠ [] → began ts)
    (hnext : ∀ ts v us, done ts v → began us → began (ts ++ us))
    (hd : ∀ ts v us vs, done ts v → many us vs → done' (ts ++ us) (v, vs))
    (hb : ∀ us, begun us → begun' us)
    (hb' : ∀ ts v us, done ts v → began us → begun' (ts ++ us)) :
    (Parser.many1 spare p).Reads done' begun' n := by
  rw [Parser.many1_eq_seq]
  intro all rest c hc hn
  have hloop : ∀ (v : α) c' ts r, rest = ts ++ r → c'.At all r →
      Reading all r many began (· ≠ []) c' (Parser.many spare p c') := by
    intro v c' ts r hrest hat
    refine reading_collect hp hne hnil hcons hitem hnext hat ?_ ?_
    · rw [hrest, List.length_append] at hn
      omega
    · rw [Cursor.turns, hat.remaining]
      omega
  have hend : ∀ ts v, done ts v → ∃ w, done' ts w := by
    intro ts v hdone
    exact ⟨(v, []), by simpa using hd ts v [] [] hdone hnil⟩
  exact reading_bind_loop (hp all rest c hc hn) hloop (fun _ _ _ _ h => isFatal_of_collect h) hd
    hend hb hb'

/-- Items behind one another, or none at all. -/
theorem sepBy {item : Parser α} {delimiter : Parser β} {d : Token}
    (many : List Token → List α → Prop) (began : List Token → Prop)
    {done' : List Token → List α → Prop} {begun' : List Token → Prop} (spare : Nat)
    (hitem : item.Reads done begun n)
    (hdelim : delimiter.Reads (fun ts _ => ts = [d]) (fun ts => ts = []) n)
    (hnil : begun []) (hmany : many [] [])
    (hcons : ∀ ts v us vs, done ts v → many us vs → many (d :: (ts ++ us)) (v :: vs))
    (hbegan : ∀ ts, begun ts → began (d :: ts))
    (hnext : ∀ ts v us, done ts v → began us → began (d :: (ts ++ us)))
    (hempty : done' [] []) (hd : ∀ ts v us vs, done ts v → many us vs → done' (ts ++ us) (v :: vs))
    (hb : ∀ us, begun us → us ≠ [] → begun' us)
    (hb' : ∀ ts v us, done ts v → began us → begun' (ts ++ us)) :
    (Parser.sepBy spare item delimiter).Reads done' begun' n := by
  have hnextItem : (Parser.map Prod.snd (Parser.seq delimiter item)).Reads
      (fun ts v => ∃ us, ts = d :: us ∧ done us v)
      (fun ts => ts = [] ∨ ∃ us, ts = d :: us ∧ begun us) n :=
    hdelim.keepRight (hitem.of_le (Nat.sub_le n 1)) hnil
  have hend : ∀ ts v, done ts v → ∃ w, done' ts w := by
    intro ts v hdone
    exact ⟨[v], by simpa using hd ts v [] [] hdone hmany⟩
  intro all rest c hc hn
  have ho := hitem all rest c hc hn
  rw [Parser.sepBy_apply]
  cases hic : item c with
  | ok v c' =>
    rw [hic] at ho
    have hloop : ∀ ts r, rest = ts ++ r → c'.At all r → Reading all r many began (· ≠ []) c'
        (Parser.many spare (Parser.map Prod.snd (Parser.seq delimiter item)) c') := by
      intro ts r hrest hat
      refine reading_collect hnextItem ?_ hmany ?_ ?_ ?_ hat ?_ ?_
      · rintro ts v ⟨us, rfl, -⟩
        exact List.cons_ne_nil _ _
      · rintro ts v us vs ⟨ws, rfl, hv⟩ hvs
        exact hcons ws v us vs hv hvs
      · rintro ts (rfl | ⟨us, rfl, hus⟩) hts
        · exact absurd rfl hts
        · exact hbegan us hus
      · rintro ts v us ⟨ws, rfl, hv⟩ hus
        exact hnext ws v us hv hus
      · rw [hrest, List.length_append] at hn
        omega
      · rw [Cursor.turns, hat.remaining]
        omega
    exact reading_loop ho hloop (fun _ _ h => isFatal_of_collect h) (fun ts us w => hd ts v us w)
      (fun P hP => seen_of_item P hP hempty hend hb) (fun ts us => hb' ts v us)
  | fail f c' =>
    rw [hic] at ho
    exact reading_stop ho hc hempty hend hb
  | stalled =>
    rw [hic] at ho
    cases ho

/-! ### Tails -/

theorem isFatal_of_joinTails {tail : Parser (Tail α)} {turns : Nat} {tree : Tree α}
    {c c' : Cursor} {f : Failure} (h : joinTails tail turns tree c = .fail f c') :
    f.isFatal = true := by
  induction turns generalizing tree c with
  | zero => cases h
  | succ turns ih =>
    cases hp : tail c with
    | ok v c₁ =>
      cases v with
      | more op right =>
        rw [joinTails_more hp] at h
        exact ih h
      | last op right =>
        rw [joinTails_last hp] at h
        cases h
    | fail g c₁ =>
      rw [joinTails_fail hp] at h
      split at h
      · rename_i hg
        cases h
        exact hg
      · cases h
    | stalled =>
      rw [joinTails_stalled hp] at h
      cases h

/-- **Tails until one ends the level or none follows.**  `joined tree ts tree'` says
that the tails `ts` make `tree'` of `tree`. -/
theorem reading_joinTails {tail : Parser (Tail α)} {done : List Token → Tail α → Prop}
    {joined : Tree α → List Token → Tree α → Prop} {began : List Token → Prop}
    (htail : tail.Reads done begun n) (hne : ∀ ts v, done ts v → ts ≠ [])
    (hnil : ∀ tree, joined tree [] tree)
    (hmore : ∀ tree ts op right us tree', done ts (.more op right) →
      joined (.node op tree right) us tree' → joined tree (ts ++ us) tree')
    (hlast : ∀ tree ts op right, done ts (.last op right) → joined tree ts (.node op tree right))
    (hitem : ∀ ts, begun ts → ts ≠ [] → began ts)
    (hnext : ∀ ts op right us, done ts (.more op right) → began us → began (ts ++ us))
    {turns : Nat} {tree : Tree α} {all rest : List Token} {c : Cursor} (hc : c.At all rest)
    (hn : rest.length < n) (hturns : rest.length < turns) :
    Reading all rest (joined tree) began (· ≠ []) c (joinTails tail turns tree c) := by
  induction turns generalizing rest c tree with
  | zero => exact absurd hturns (Nat.not_lt_zero _)
  | succ turns ih =>
    -- One tail by itself is complete, whether or not it lets the level go on.
    have hone : ∀ us w, done us w → ∃ tree', joined tree us tree' := by
      rintro us (⟨op, right⟩ | ⟨op, right⟩) hw
      · refine ⟨.node op tree right, ?_⟩
        simpa using hmore tree us op right [] _ hw (hnil _)
      · exact ⟨_, hlast tree us op right hw⟩
    have ho := htail all rest c hc hn
    cases hpc : tail c with
    | ok v c' =>
      rw [hpc] at ho
      cases ho with
      | @ok _ _ ts r hrest hat hdone hrec =>
        have hts : ts ≠ [] := hne ts v hdone
        have hlen : r.length < rest.length := by
          have := List.length_pos_iff.mpr hts
          rw [hrest, List.length_append]
          omega
        cases v with
        | more op right =>
          rw [joinTails_more hpc, ← Outcome.map_id (joinTails tail turns _ c')]
          refine (ih hat (by omega) (by omega)).after hrest
            (fun us tree' => hmore tree ts op right us tree' hdone)
            (fun us => hnext ts op right us hdone) (fun us _ => by simp [hts]) hrec
            (seen_of_item (·.length ≤ ts.length) (Nat.zero_le _) (hnil tree) hone hitem) ?_
          intro g c₂ hg us hus
          have hf := isFatal_of_joinTails hg
          exact seen_of_item (fun _ => g.isFatal = true) hf (hnil tree) hone hitem us
            (hus.imp_right fun hw => ⟨hf, hw.2⟩)
        | last op right =>
          rw [joinTails_last hpc]
          exact .ok hrest hat (hlast tree ts op right hdone)
            (hrec.mono (seen_of_item (·.length ≤ ts.length) (Nat.zero_le _) (hnil tree) hone hitem))
    | fail f c' =>
      rw [hpc] at ho
      rw [joinTails_fail hpc]
      exact reading_stop ho hc (hnil tree) hone hitem
    | stalled =>
      rw [hpc] at ho
      cases ho

/-- **A level**: an operand and its tails. -/
theorem chain {operand : Parser (Tree α)} {tail : Parser (Tail α)}
    {done : List Token → Tree α → Prop} {doneTail : List Token → Tail α → Prop}
    {done' : List Token → Tree α → Prop} {begunTail begun' : List Token → Prop}
    (joined : Tree α → List Token → Tree α → Prop) (began : List Token → Prop) (spare : Nat)
    (hoperand : operand.Reads done begun n) (htail : tail.Reads doneTail begunTail n)
    (hne : ∀ ts v, doneTail ts v → ts ≠ []) (hnil : ∀ tree, joined tree [] tree)
    (hmore : ∀ tree ts op right us tree', doneTail ts (.more op right) →
      joined (.node op tree right) us tree' → joined tree (ts ++ us) tree')
    (hlast : ∀ tree ts op right, doneTail ts (.last op right) →
      joined tree ts (.node op tree right))
    (hitem : ∀ ts, begunTail ts → ts ≠ [] → began ts)
    (hnext : ∀ ts op right us, doneTail ts (.more op right) → began us → began (ts ++ us))
    (hd : ∀ ts tree us tree', done ts tree → joined tree us tree' → done' (ts ++ us) tree')
    (hb : ∀ us, begun us → begun' us)
    (hb' : ∀ ts tree us, done ts tree → began us → begun' (ts ++ us)) :
    (Parser.chain spare operand tail).Reads done' begun' n := by
  intro all rest c hc hn
  have hloop : ∀ tree c' ts r, rest = ts ++ r → c'.At all r →
      Reading all r (joined tree) began (· ≠ []) c' (joinTails tail (c'.turns spare) tree c') := by
    intro tree c' ts r hrest hat
    refine reading_joinTails htail hne hnil hmore hlast hitem hnext hat ?_ ?_
    · rw [hrest, List.length_append] at hn
      omega
    · rw [Cursor.turns, hat.remaining]
      omega
  have hend : ∀ ts tree, done ts tree → ∃ tree', done' ts tree' := by
    intro ts tree hdone
    exact ⟨tree, by simpa using hd ts tree [] tree hdone (hnil tree)⟩
  have h := reading_bind_loop (f := fun _ => id) (hoperand all rest c hc hn) hloop
    (fun _ _ _ _ h => isFatal_of_joinTails h) hd hend hb hb'
  simp only [Outcome.map_id] at h
  exact h

/-! ## Recursion -/

/-- **Recursive parsers.**  The body may enter the parser only where fewer tokens are
left. -/
theorem fix {body : Parser α → Parser α}
    (h : ∀ m p, m < n → p.Reads done begun m → (body p).Reads done begun (m + 1)) (spare : Nat) :
    (Parser.fix spare body).Reads done begun n := by
  intro all rest c hc hn
  refine fix_of_body (fun c o => ∀ all rest, c.At all rest →
    Reading all rest done begun (· ≠ []) c o) (fun m p hm hp c hlt all rest hc => ?_) spare
    (hc.remaining.symm ▸ hn) all rest hc
  refine h m p hm ?_ all rest c hc (hc.remaining ▸ hlt)
  exact fun all rest c hc hn => hp c (hc.remaining.symm ▸ hn) all rest hc

end Parser.Reads

end Fixity
