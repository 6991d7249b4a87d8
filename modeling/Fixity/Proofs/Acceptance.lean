import Fixity.Proofs.Steps

/-! # What a parser accepts

`Parser.Accepts p ts r good` says that `p` reads the tokens `ts` where `r` follows:
it returns a `good` value and stops in front of `r`.  `Parser.Declines p rest` says
that it fails there and lets an alternative be tried.

A parser that is greedy, or that prefers one alternative, accepts what it should
only where the tokens that follow, or the first ones, keep the others out.  So there
are two lemmas for each way of building parsers, one for either judgement, and the
alternatives and loops ask for both.  `Parser.Finds` collects the phrases that a
parser accepts in front of everything that stops it.
-/
namespace Fixity.Parser

/-- **The parser reads `ts` where `r` follows** and returns a `good` value. -/
def Accepts {α : Type} (p : Parser α) (ts r : List Token) (good : α → Prop) : Prop :=
  ∀ all c, c.At all (ts ++ r) → ∃ v c', p c = .ok v c' ∧ c'.At all r ∧ good v

/-- **The parser fails recoverably** where `rest` is left. -/
def Declines {α : Type} (p : Parser α) (rest : List Token) : Prop :=
  ∀ all c, c.At all rest → ∃ f c', p c = .fail f c' ∧ f.isFatal = false ∧ c'.tokens = all

/-- **The parser finds** the phrases that are `done`, up to a `view` of its values, in
front of whatever stops it, wherever fewer than `n` tokens are left. -/
def Finds {α β : Type} (p : Parser α) (view : α → β) (done : List Token → β → Prop)
    (stops : List Token → Prop) (n : Nat) : Prop :=
  ∀ ts b r, done ts b → stops r → (ts ++ r).length < n → p.Accepts ts r (view · = b)

/-- **One of several parsers accepts**, and those before it decline. -/
inductive Chosen {α : Type} (ts r : List Token) (good : α → Prop) : List (Parser α) → Prop where
  | here {p : Parser α} {ps : List (Parser α)} (h : p.Accepts ts r good) :
      Chosen ts r good (p :: ps)
  | there {p : Parser α} {ps : List (Parser α)} (h : p.Declines (ts ++ r))
      (hs : Chosen ts r good ps) : Chosen ts r good (p :: ps)

variable {α β : Type} {p q : Parser α} {ts us r rest : List Token} {good : α → Prop}

/-- Of parsers that either accept or decline, one is chosen if one accepts. -/
theorem Chosen.of_forall {ps : List (Parser α)}
    (hall : ∀ p ∈ ps, p.Accepts ts r good ∨ p.Declines (ts ++ r))
    (hsome : ∃ p ∈ ps, p.Accepts ts r good) : Chosen ts r good ps := by
  induction ps with
  | nil =>
    obtain ⟨p, hp, -⟩ := hsome
    cases hp
  | cons p ps ih =>
    rcases hall p List.mem_cons_self with hp | hp
    · exact .here hp
    · obtain ⟨p', hp', ha⟩ := hsome
      rcases List.mem_cons.mp hp' with rfl | hmem
      · exact .here ha
      · exact .there hp (ih (fun p hp => hall p (List.mem_cons_of_mem _ hp)) ⟨p', hmem, ha⟩)

/-! ## Acceptance -/

namespace Accepts

theorem mono {good' : α → Prop} (h : p.Accepts ts r good) (hg : ∀ v, good v → good' v) :
    p.Accepts ts r good' := by
  intro all c hc
  obtain ⟨v, c', hp, hat, hv⟩ := h all c hc
  exact ⟨v, c', hp, hat, hg v hv⟩

theorem map {good' : β → Prop} {f : α → β} (h : p.Accepts ts r fun v => good' (f v)) :
    (Parser.map f p).Accepts ts r good' := by
  intro all c hc
  obtain ⟨v, c', hp, hat, hv⟩ := h all c hc
  refine ⟨f v, c', ?_, hat, hv⟩
  rw [Parser.map, hp, Outcome.map_ok]

theorem token (decode : Token → Option α) (expected : String) {t : Token} {v : α}
    (h : decode t = some v) (hv : good v) : (Parser.token decode expected).Accepts [t] r good := by
  intro all c hc
  refine ⟨v, c.advance, ?_, Cursor.At.advance hc, hv⟩
  simp only [Parser.token, hc.peek?, List.singleton_append, List.head?_cons, Option.bind_some, h]

theorem filter {accepts : α → Bool} {label : String}
    (h : p.Accepts ts r fun v => good v ∧ accepts v = true) :
    (Parser.filter accepts label p).Accepts ts r good := by
  intro all c hc
  obtain ⟨v, c', hp, hat, hv, ha⟩ := h all c hc
  refine ⟨v, c', ?_, hat, hv⟩
  rw [Parser.filter, hp, Outcome.bind_ok, if_pos ha]

/-- One parser, then another. -/
theorem seq {q : Parser β} {good' : β → Prop} {both : α × β → Prop}
    (hp : p.Accepts ts (us ++ r) good) (hq : q.Accepts us r good')
    (h : ∀ v w, good v → good' w → both (v, w)) :
    (Parser.seq p q).Accepts (ts ++ us) r both := by
  intro all c hc
  rw [List.append_assoc] at hc
  obtain ⟨v, c₁, hpc, hat₁, hv⟩ := hp all c hc
  obtain ⟨w, c₂, hqc, hat₂, hw⟩ := hq all c₁ hat₁
  refine ⟨(v, w), c₂, ?_, hat₂, h v w hv hw⟩
  rw [Parser.seq, hpc, Outcome.bind_ok, hqc, Outcome.map_ok]

/-- One token, then a parser. -/
theorem seq_cons {q : Parser β} {t : Token} {good' : β → Prop} {both : α × β → Prop}
    (hp : p.Accepts [t] (us ++ r) good) (hq : q.Accepts us r good')
    (h : ∀ v w, good v → good' w → both (v, w)) : (Parser.seq p q).Accepts (t :: us) r both :=
  seq hp hq h

theorem keepRight {q : Parser β} {t : Token} {good' : β → Prop}
    (hp : p.Accepts [t] (us ++ r) good) (hq : q.Accepts us r good') :
    (Parser.map Prod.snd (Parser.seq p q)).Accepts (t :: us) r good' :=
  map (seq_cons hp hq fun _ _ _ hw => hw)

theorem keepLeft {q : Parser β} {t : Token} {good' : β → Prop}
    (hp : p.Accepts ts ([t] ++ r) good) (hq : q.Accepts [t] r good') :
    (Parser.map Prod.fst (Parser.seq p q)).Accepts (ts ++ [t]) r good :=
  map (seq hp hq fun _ _ hv _ => hv)

/-- A parser between two tokens. -/
theorem between {γ δ : Type} {left : Parser γ} {right : Parser δ} {l l' : Token}
    {goodLeft : γ → Prop} {goodRight : δ → Prop} (ts : List Token)
    (hl : left.Accepts [l] (ts ++ ([l'] ++ r)) goodLeft) (hp : p.Accepts ts ([l'] ++ r) good)
    (hr : right.Accepts [l'] r goodRight) :
    (Parser.map Prod.fst (Parser.seq (Parser.map Prod.snd (Parser.seq left p)) right)).Accepts
      (l :: (ts ++ [l'])) r good :=
  keepLeft (keepRight hl hp) hr

theorem commit (h : p.Accepts ts r good) : (Parser.commit p).Accepts ts r good := by
  intro all c hc
  obtain ⟨v, c', hp, hat, hv⟩ := h all c hc
  refine ⟨v, c', ?_, hat, hv⟩
  rw [Parser.commit, hp, Outcome.recover_ok]

theorem label (name : String) (h : p.Accepts ts r good) :
    (Parser.label name p).Accepts ts r good := by
  intro all c hc
  obtain ⟨v, c', hp, hat, hv⟩ := h all c hc
  refine ⟨v, c', ?_, hat, hv⟩
  rw [Parser.label, hp, Outcome.recover_ok]

theorem or_first (h : p.Accepts ts r good) : (Parser.or p q).Accepts ts r good := by
  intro all c hc
  obtain ⟨v, c', hp, hat, hv⟩ := h all c hc
  refine ⟨v, c', ?_, hat, hv⟩
  rw [Parser.or, hp, Outcome.recover_ok]

theorem or_second (hp : p.Declines (ts ++ r)) (hq : q.Accepts ts r good) :
    (Parser.or p q).Accepts ts r good := by
  intro all c hc
  obtain ⟨f, c₁, hpc, hf, htok⟩ := hp all c hc
  obtain ⟨v, c₂, hqc, hat, hv⟩ := hq all _ (hc.restore htok)
  refine ⟨v, c₂, ?_, hat, hv⟩
  rw [Parser.or, hpc, Outcome.recover_recoverable hf, hqc, Outcome.recover_ok]

theorem orGroup (h : p.Accepts ts r good) : (Parser.orGroup p q).Accepts ts r good := by
  intro all c hc
  obtain ⟨v, c', hp, hat, hv⟩ := h all c hc
  refine ⟨v, c', ?_, hat, hv⟩
  rw [Parser.orGroup, hp, Outcome.recover_ok]

theorem tryEach {ps : List (Parser α)} (h : Chosen ts r good ps) {all : List Token}
    {c c₁ : Cursor} (hc : c.At all (ts ++ r)) (hc₁ : c₁.At all (ts ++ r))
    (failure : Option Failure) :
    ∃ v c', Parser.tryEach c.position ps failure c₁ = .ok v c' ∧ c'.At all r ∧ good v := by
  induction h generalizing c₁ failure with
  | here hp =>
    obtain ⟨v, c', hpc, hat, hv⟩ := hp all c₁ hc₁
    refine ⟨v, c', ?_, hat, hv⟩
    simp only [Parser.tryEach, hpc, Outcome.recover_ok]
  | there hp _ ih =>
    obtain ⟨f, c', hpc, hf, htok⟩ := hp all c₁ hc₁
    simp only [Parser.tryEach, hpc, Outcome.recover_recoverable hf]
    exact ih (hc.restore htok) _

theorem firstOf {ps : List (Parser α)} (h : Chosen ts r good ps) :
    (Parser.firstOf ps).Accepts ts r good :=
  fun _ _ hc => tryEach h hc hc none

end Accepts

/-! ## Declining -/

namespace Declines

theorem map {f : α → β} (h : p.Declines rest) : (Parser.map f p).Declines rest := by
  intro all c hc
  obtain ⟨g, c', hp, hg, htok⟩ := h all c hc
  refine ⟨g, c', ?_, hg, htok⟩
  rw [Parser.map, hp, Outcome.map_fail]

theorem reject (expected : String) : (Parser.reject expected : Parser α).Declines rest :=
  fun _ c hc => ⟨_, _, rfl, Cursor.isFatal_unmet c expected, hc.tokens⟩

theorem token (decode : Token → Option α) (expected : String)
    (h : ∀ t, rest.head? = some t → decode t = none) :
    (Parser.token decode expected).Declines rest := by
  intro all c hc
  have hnone : c.peek?.bind decode = none := by
    rw [hc.peek?, Option.bind_eq_none_iff]
    exact h
  obtain ⟨f, c', hr, hf⟩ := reject (α := α) expected all c hc
  refine ⟨f, c', ?_, hf⟩
  rw [← hr]
  simp only [Parser.token, hnone]

/-- One token that is fixed. -/
theorem exactly {t : Token} (v : α) (expected : String) (h : rest.head? ≠ some t) :
    (Parser.token (fun t' => if t' = t then some v else none) expected).Declines rest := by
  refine token _ _ fun t' ht' => if_neg ?_
  rintro rfl
  exact h ht'

theorem filter {accepts : α → Bool} {label : String} (h : p.Declines rest) :
    (Parser.filter accepts label p).Declines rest := by
  intro all c hc
  obtain ⟨f, c', hp, hf, htok⟩ := h all c hc
  refine ⟨f, c', ?_, hf, htok⟩
  rw [Parser.filter, hp, Outcome.bind_fail]

theorem filter_of_accepts {accepts : α → Bool} {label : String} {t : Token}
    (h : p.Accepts [t] r fun v => accepts v = false) :
    (Parser.filter accepts label p).Declines (t :: r) := by
  intro all c hc
  obtain ⟨v, c', hp, hat, hv⟩ := h all c hc
  obtain ⟨f, c₂, hr, hf⟩ := reject (α := α) label all _ (hc.restore hat.tokens)
  refine ⟨f, c₂, ?_, hf⟩
  rw [Parser.filter, hp, Outcome.bind_ok, hv, ← hr]
  rfl

theorem seq_first {q : Parser β} (h : p.Declines rest) : (Parser.seq p q).Declines rest := by
  intro all c hc
  obtain ⟨f, c', hp, hf, htok⟩ := h all c hc
  refine ⟨f, c', ?_, hf, htok⟩
  rw [Parser.seq, hp, Outcome.bind_fail]

theorem seq_append {q : Parser β} (hp : p.Accepts ts r good) (hq : q.Declines r) :
    (Parser.seq p q).Declines (ts ++ r) := by
  intro all c hc
  obtain ⟨v, c₁, hpc, hat, -⟩ := hp all c hc
  obtain ⟨f, c₂, hqc, hf, htok⟩ := hq all c₁ hat
  refine ⟨f, c₂, ?_, hf, htok⟩
  rw [Parser.seq, hpc, Outcome.bind_ok, hqc, Outcome.map_fail]

theorem seq_second {q : Parser β} {t : Token} (hp : p.Accepts [t] r good) (hq : q.Declines r) :
    (Parser.seq p q).Declines (t :: r) := seq_append hp hq

theorem label (name : String) (h : p.Declines rest) : (Parser.label name p).Declines rest := by
  intro all c hc
  obtain ⟨f, c', hp, hf, htok⟩ := h all c hc
  rw [Parser.label, hp, Outcome.recover_recoverable hf]
  split
  · exact ⟨_, _, rfl, hf, htok⟩
  · exact ⟨f, c', rfl, hf, htok⟩

theorem or (hp : p.Declines rest) (hq : q.Declines rest) : (Parser.or p q).Declines rest := by
  intro all c hc
  obtain ⟨f, c₁, hpc, hf, htok⟩ := hp all c hc
  obtain ⟨g, c₂, hqc, hg, htok₂⟩ := hq all _ (hc.restore htok)
  refine ⟨f.merge g, c₂.restore c.position, ?_, Failure.isFatal_merge hf hg, htok₂⟩
  rw [Parser.or, hpc, Outcome.recover_recoverable hf, hqc, Outcome.recover_recoverable hg]

theorem chain {operand : Parser (Tree α)} {tail : Parser (Tail α)} (spare : Nat)
    (h : operand.Declines rest) : (Parser.chain spare operand tail).Declines rest := by
  intro all c hc
  obtain ⟨f, c', hp, hf, htok⟩ := h all c hc
  refine ⟨f, c', ?_, hf, htok⟩
  rw [Parser.chain, hp, Outcome.bind_fail]

theorem tryEach {ps : List (Parser α)} {all : List Token} {c c₁ : Cursor}
    (hps : ∀ p ∈ ps, p.Declines rest) (hc : c.At all rest) (hc₁ : c₁.At all rest)
    {failure : Option Failure} (hf : ∀ f, failure = some f → f.isFatal = false) :
    ∃ f c', Parser.tryEach c.position ps failure c₁ = .fail f c' ∧ f.isFatal = false ∧
      c'.tokens = all := by
  induction ps generalizing c₁ failure with
  | nil =>
    refine ⟨_, c₁, rfl, ?_, hc₁.tokens⟩
    cases failure with
    | none => exact Cursor.isFatal_unmet c₁ _
    | some f => exact hf f rfl
  | cons p ps ih =>
    obtain ⟨g, c₂, hpc, hg, htok⟩ := hps p List.mem_cons_self all c₁ hc₁
    simp only [Parser.tryEach, hpc, Outcome.recover_recoverable hg]
    refine ih (fun p hp => hps p (List.mem_cons_of_mem _ hp)) (hc.restore htok) ?_
    intro f hfailure
    cases failure with
    | none =>
      cases hfailure
      exact hg
    | some previous =>
      cases hfailure
      exact Failure.isFatal_merge (hf previous rfl) hg

theorem firstOf {ps : List (Parser α)} (hps : ∀ p ∈ ps, p.Declines rest) :
    (Parser.firstOf ps).Declines rest :=
  fun _ _ hc => tryEach hps hc hc (by simp)

end Declines

/-! ## Loops -/

namespace Accepts
variable {turns : Nat}

/-- A loop ends where its item declines. -/
theorem collect_nil (h : p.Declines r) : (collect p (turns + 1)).Accepts [] r (· = []) := by
  intro all c hc
  obtain ⟨f, c', hp, hf, htok⟩ := h all c hc
  refine ⟨[], c'.restore c.position, ?_, hc.restore htok, rfl⟩
  rw [collect_fail hp, if_neg (by simp [hf])]

theorem collect_cons (ts : List Token) {v : α} {vs : List α} (hp : p.Accepts ts (us ++ r) (· = v))
    (hs : (collect p turns).Accepts us r (· = vs)) :
    (collect p (turns + 1)).Accepts (ts ++ us) r (· = v :: vs) := by
  intro all c hc
  rw [List.append_assoc] at hc
  obtain ⟨_, c₁, hpc, hat₁, rfl⟩ := hp all c hc
  obtain ⟨_, c₂, hsc, hat₂, rfl⟩ := hs all c₁ hat₁
  refine ⟨_, c₂, ?_, hat₂, rfl⟩
  rw [collect_ok hpc, hsc, Outcome.map_ok]

/-- A loop that accepts with every number of turns that exceeds the tokens left. -/
theorem many {vs : List α} (spare : Nat)
    (h : ∀ turns, (ts ++ r).length < turns → (collect p turns).Accepts ts r (· = vs)) :
    (Parser.many spare p).Accepts ts r (· = vs) := by
  intro all c hc
  refine h (c.turns spare) ?_ all c hc
  rw [Cursor.turns, hc.remaining]
  omega

theorem many1 {v : α} {vs : List α} (spare : Nat) (hp : p.Accepts ts (us ++ r) (· = v))
    (hs : (Parser.many spare p).Accepts us r (· = vs)) :
    (Parser.many1 spare p).Accepts (ts ++ us) r (· = (v, vs)) := by
  intro all c hc
  rw [List.append_assoc] at hc
  obtain ⟨_, c₁, hpc, hat₁, rfl⟩ := hp all c hc
  obtain ⟨_, c₂, hsc, hat₂, rfl⟩ := hs all c₁ hat₁
  refine ⟨_, c₂, ?_, hat₂, rfl⟩
  rw [Parser.many1_eq_seq, Parser.seq, hpc, Outcome.bind_ok, hsc, Outcome.map_ok]

theorem sepBy_nil {delimiter : Parser β} (spare : Nat) (h : p.Declines r) :
    (Parser.sepBy spare p delimiter).Accepts [] r (· = []) := by
  intro all c hc
  obtain ⟨f, c', hp, hf, htok⟩ := h all c hc
  refine ⟨[], c'.restore c.position, ?_, hc.restore htok, rfl⟩
  simp only [Parser.sepBy_apply, hp, hf]
  rfl

theorem sepBy_cons {delimiter : Parser β} {v : α} {vs : List α} (spare : Nat)
    (hp : p.Accepts ts (us ++ r) (· = v))
    (hs : (Parser.many spare (Parser.map Prod.snd (Parser.seq delimiter p))).Accepts us r
      (· = vs)) : (Parser.sepBy spare p delimiter).Accepts (ts ++ us) r (· = v :: vs) := by
  intro all c hc
  rw [List.append_assoc] at hc
  obtain ⟨_, c₁, hpc, hat₁, rfl⟩ := hp all c hc
  obtain ⟨_, c₂, hsc, hat₂, rfl⟩ := hs all c₁ hat₁
  refine ⟨_, c₂, ?_, hat₂, rfl⟩
  simp only [Parser.sepBy_apply, hpc, hsc, Outcome.map_ok]

variable {tail : Parser (Tail α)} {tree : Tree α} {goodTree : Tree α → Prop}

/-- A level ends where its tail declines. -/
theorem joinTails_nil (h : tail.Declines r) (hg : goodTree tree) :
    (joinTails tail (turns + 1) tree).Accepts [] r goodTree := by
  intro all c hc
  obtain ⟨f, c', hp, hf, htok⟩ := h all c hc
  refine ⟨tree, c'.restore c.position, ?_, hc.restore htok, hg⟩
  rw [joinTails_fail hp, if_neg (by simp [hf])]

/-- A tail after which the level goes on. -/
theorem joinTails_more (ts : List Token) {good : Operator → Tree α → Prop}
    (h : tail.Accepts ts (us ++ r) fun v => ∃ op right, v = .more op right ∧ good op right)
    (hs : ∀ op right, good op right →
      (joinTails tail turns (.node op tree right)).Accepts us r goodTree) :
    (joinTails tail (turns + 1) tree).Accepts (ts ++ us) r goodTree := by
  intro all c hc
  rw [List.append_assoc] at hc
  obtain ⟨_, c₁, hpc, hat₁, op, right, rfl, hg⟩ := h all c hc
  obtain ⟨tree', c₂, hsc, hat₂, ht⟩ := hs op right hg all c₁ hat₁
  refine ⟨tree', c₂, ?_, hat₂, ht⟩
  rw [Parser.joinTails_more hpc, hsc]

/-- A tail that ends the level. -/
theorem joinTails_last (h : tail.Accepts ts r fun v =>
      ∃ op right, v = .last op right ∧ goodTree (.node op tree right)) :
    (joinTails tail (turns + 1) tree).Accepts ts r goodTree := by
  intro all c hc
  obtain ⟨_, c₁, hpc, hat, op, right, rfl, hg⟩ := h all c hc
  refine ⟨_, c₁, ?_, hat, hg⟩
  rw [Parser.joinTails_last hpc]

theorem chain {operand : Parser (Tree α)} {good : Tree α → Prop} (spare : Nat)
    (hp : operand.Accepts ts (us ++ r) good)
    (hs : ∀ tree turns, good tree → (us ++ r).length < turns →
      (joinTails tail turns tree).Accepts us r goodTree) :
    (Parser.chain spare operand tail).Accepts (ts ++ us) r goodTree := by
  intro all c hc
  rw [List.append_assoc] at hc
  obtain ⟨tree, c₁, hpc, hat₁, hg⟩ := hp all c hc
  have hturns : (us ++ r).length < c₁.turns spare := by
    rw [Cursor.turns, hat₁.remaining]
    omega
  obtain ⟨tree', c₂, hsc, hat₂, ht⟩ := hs tree _ hg hturns all c₁ hat₁
  refine ⟨tree', c₂, ?_, hat₂, ht⟩
  rw [Parser.chain, hpc, Outcome.bind_ok, hsc]

end Accepts

/-! ## Recursion -/

namespace Finds
variable {view : α → β} {done : List Token → β → Prop} {stops : List Token → Prop} {n : Nat}

theorem of_le {m : Nat} (h : p.Finds view done stops n) (hm : m ≤ n) :
    p.Finds view done stops m :=
  fun ts b r hd hr hlt => h ts b r hd hr (Nat.lt_of_lt_of_le hlt hm)

/-- **Recursive parsers.**  The body may enter the parser only where fewer tokens are
left. -/
theorem fix {body : Parser α → Parser α}
    (h : ∀ m p, m < n → p.Finds view done stops m → (body p).Finds view done stops (m + 1))
    (spare : Nat) : (Parser.fix spare body).Finds view done stops n := by
  intro ts b r hd hr hlt all c hc
  refine fix_of_body (fun c o => ∀ ts b r all, done ts b → stops r → c.At all (ts ++ r) →
    ∃ v c', o = .ok v c' ∧ c'.At all r ∧ view v = b) ?_ spare (hc.remaining.symm ▸ hlt) ts b r all
    hd hr hc
  intro m p hm hp c hlt ts b r all hd hr hc
  refine h m p hm ?_ ts b r hd hr (hc.remaining ▸ hlt) all c hc
  exact fun ts b r hd hr hlt all c hc => hp c (hc.remaining.symm ▸ hlt) ts b r all hd hr hc

end Finds

end Fixity.Parser
