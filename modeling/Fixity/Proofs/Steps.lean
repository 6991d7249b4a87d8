import Fixity.Parser

/-! # Steps of parsers

What the lemmas about parsers have in common, whatever they say of what is read: the
single steps of the loops, the induction for recursive parsers
(`Parser.fix_of_body`), the failures that they make and merge, where a cursor stands in
its input (`Cursor.At`), and where the record that it holds lies (`Recorded`).
-/
namespace Fixity

/-! ## The steps of the loops -/

theorem Outcome.map_id {α : Type} (o : Outcome α) : o.map id = o := by
  cases o <;> rfl

namespace Parser
variable {α : Type} {p : Parser α} {turns : Nat} {c c' : Cursor} {f : Failure}

theorem collect_ok {v : α} (h : p c = .ok v c') :
    collect p (turns + 1) c = (collect p turns c').map (v :: ·) := by
  simp only [collect, h]

theorem collect_fail (h : p c = .fail f c') :
    collect p (turns + 1) c =
      if f.isFatal = true then .fail f c' else .ok [] (c'.restore c.position) := by
  simp only [collect, h]

theorem collect_stalled (h : p c = .stalled) : collect p (turns + 1) c = .stalled := by
  simp only [collect, h]

variable {tail : Parser (Tail α)} {tree right : Tree α} {op : Operator}

theorem joinTails_more (h : tail c = .ok (.more op right) c') :
    joinTails tail (turns + 1) tree c = joinTails tail turns (.node op tree right) c' := by
  simp only [joinTails, h]

theorem joinTails_last (h : tail c = .ok (.last op right) c') :
    joinTails tail (turns + 1) tree c = .ok (.node op tree right) c' := by
  simp only [joinTails, h]

theorem joinTails_fail (h : tail c = .fail f c') :
    joinTails tail (turns + 1) tree c =
      if f.isFatal = true then .fail f c' else .ok tree (c'.restore c.position) := by
  simp only [joinTails, h]

theorem joinTails_stalled (h : tail c = .stalled) :
    joinTails tail (turns + 1) tree c = .stalled := by
  simp only [joinTails, h]

/-- **Induction for recursive parsers.**  `P` holds of every run where fewer than `n`
tokens are left, if the body carries it from parsers with the next smaller bound. -/
theorem fix_of_body (P : Cursor → Outcome α → Prop) {body : Parser α → Parser α} {n : Nat}
    (h : ∀ m p, m < n → (∀ c, c.remaining < m → P c (p c)) →
      ∀ c, c.remaining < m + 1 → P c (body p c)) (spare : Nat) {c : Cursor}
    (hc : c.remaining < n) : P c (fix spare body c) := by
  -- At each entry, as many unfoldings are left as the bound asks for.
  have key : ∀ turns m, m ≤ turns → m ≤ n → ∀ c, c.remaining < m → P c (iterate body turns c) := by
    intro turns
    induction turns with
    | zero =>
      intro m hm _ c hlt
      omega
    | succ turns ih =>
      intro m hm hmn c hlt
      cases m with
      | zero => exact absurd hlt (Nat.not_lt_zero _)
      | succ m => exact h m _ (by omega) (ih m (by omega) (by omega)) c hlt
  refine key (c.turns spare) (c.remaining + 1) ?_ hc c (Nat.lt_succ_self _)
  exact Nat.le_add_right _ _

end Parser

/-! ## Failures -/

namespace Cursor

theorem position_unmet (c : Cursor) (expected : String) :
    (c.unmet expected).position = c.position := by
  unfold Cursor.unmet
  split <;> rfl

theorem kind_unmet (c : Cursor) (expected : String) : (c.unmet expected).kind = .unexpected := by
  unfold Cursor.unmet
  split <;> rfl

theorem isFatal_unmet (c : Cursor) (expected : String) : (c.unmet expected).isFatal = false := by
  unfold Cursor.unmet
  split <;> rfl

end Cursor

namespace Failure
variable {f g : Failure}

theorem kind_merge (hf : f.kind = .unexpected) (hg : g.kind = .unexpected) :
    (f.merge g).kind = .unexpected := by
  unfold Failure.merge
  split
  · exact hf
  split
  · exact hg
  · exact hf

theorem isFatal_merge (hf : f.isFatal = false) (hg : g.isFatal = false) :
    (f.merge g).isFatal = false := by
  unfold Failure.merge
  split
  · exact hf
  split
  · exact hg
  · rw [hg]
    exact hf

end Failure

/-! ## Where a cursor stands -/

/-- Cursors at one place see the same token. -/
theorem Cursor.peek?_congr {c d : Cursor} (htok : c.tokens = d.tokens)
    (hpos : c.position = d.position) : c.peek? = d.peek? := by
  rw [Cursor.peek?, Cursor.peek?, htok, hpos]

theorem Cursor.hasNext_congr {c d : Cursor} (htok : c.tokens = d.tokens)
    (hpos : c.position = d.position) : c.hasNext = d.hasNext := by
  rw [Cursor.hasNext, Cursor.hasNext, htok, hpos]

/-- The cursor stands in the input `all` where `rest` is left. -/
structure Cursor.At (c : Cursor) (all rest : List Token) : Prop where
  tokens : c.tokens = all
  split : ∃ read, all = read ++ rest ∧ c.position = read.length

namespace Cursor
variable {c c' : Cursor} {all rest : List Token} {t : Token}

theorem at_start (ts : List Token) : (start ts).At ts ts := ⟨rfl, [], rfl, rfl⟩

theorem At.length (h : c.At all rest) : c.position + rest.length = all.length := by
  obtain ⟨read, hall, hpos⟩ := h.split
  rw [hall, List.length_append, hpos]

theorem At.remaining (h : c.At all rest) : c.remaining = rest.length := by
  have := h.length
  rw [Cursor.remaining, h.tokens]
  omega

theorem At.peek? (h : c.At all rest) : c.peek? = rest.head? := by
  obtain ⟨read, hall, hpos⟩ := h.split
  rw [Cursor.peek?, h.tokens, hall, hpos, List.getElem?_append_right (Nat.le_refl _), Nat.sub_self,
    List.head?_eq_getElem?]

theorem At.hasNext (h : c.At all rest) : c.hasNext = true ↔ rest ≠ [] := by
  rw [hasNext_iff_peek?, h.peek?]
  cases rest <;> simp

theorem At.advance (h : c.At all (t :: rest)) : c.advance.At all rest := by
  have hn : c.hasNext = true := h.hasNext.mpr (by simp)
  obtain ⟨read, hall, hpos⟩ := h.split
  rw [Cursor.advance, if_pos hn]
  exact ⟨h.tokens, read ++ [t], by simp [hall], by simp [hpos]⟩

@[simp] theorem furthest_advance (c : Cursor) : c.advance.furthest = c.furthest := by
  unfold Cursor.advance
  split <;> rfl

/-- Moving back to the start of a run, from anywhere in the same input. -/
theorem At.restore (h : c.At all rest) (h' : c'.tokens = all) :
    (c'.restore c.position).At all rest := ⟨h', h.split⟩

end Cursor

/-- The position `q` of the input `all` lies behind the tokens `ts`, where `rest`
is left before them. -/
def Behind (all rest ts : List Token) (q : Nat) : Prop :=
  ∃ r, rest = ts ++ r ∧ q + r.length = all.length

theorem Cursor.At.behind_nil {c : Cursor} {all rest : List Token} (h : c.At all rest) :
    Behind all rest [] c.position := ⟨rest, rfl, h.length⟩

theorem Behind.append {all rest us ts r : List Token} {q : Nat} (h : Behind all r us q)
    (hr : rest = ts ++ r) : Behind all rest (ts ++ us) q := by
  obtain ⟨r', rfl, hq⟩ := h
  exact ⟨r', by rw [hr, List.append_assoc], hq⟩

/-- **What a run brings into the record.**  The record that `c'` holds lies where
that of `c` lay, or behind tokens that were `seen` in between. -/
def Recorded (all rest : List Token) (seen : List Token → Prop) (c c' : Cursor) : Prop :=
  ∀ f, c'.furthest = some f →
    (∃ g, c.furthest = some g ∧ g.position = f.position) ∨
      ∃ ts, Behind all rest ts f.position ∧ seen ts

namespace Recorded
variable {all rest r ts : List Token} {seen seen' : List Token → Prop} {c c' c'' : Cursor}

theorem of_eq (h : c'.furthest = c.furthest) : Recorded all rest seen c c' :=
  fun f hf => Or.inl ⟨f, h ▸ hf, rfl⟩

theorem mono (h : Recorded all rest seen c c') (hs : ∀ ts, seen ts → seen' ts) :
    Recorded all rest seen' c c' := by
  intro f hf
  rcases h f hf with hg | ⟨us, hus, hseen⟩
  · exact Or.inl hg
  · exact Or.inr ⟨us, hus, hs us hseen⟩

theorem trans (h : Recorded all rest seen c c') (h' : Recorded all rest seen c' c'') :
    Recorded all rest seen c c'' := by
  intro f hf
  rcases h' f hf with ⟨g, hg, hpos⟩ | hseen
  · rcases h g hg with ⟨k, hk, hpos'⟩ | ⟨us, hus, hseen⟩
    · exact Or.inl ⟨k, hk, hpos'.trans hpos⟩
    · exact Or.inr ⟨us, hpos ▸ hus, hseen⟩
  · exact Or.inr hseen

/-- What is recorded further on was recorded behind what was read before. -/
theorem append (h : Recorded all r seen c c') (hr : rest = ts ++ r)
    (hs : ∀ us, seen us → seen' (ts ++ us)) : Recorded all rest seen' c c' := by
  intro f hf
  rcases h f hf with hg | ⟨us, hus, hseen⟩
  · exact Or.inl hg
  · exact Or.inr ⟨ts ++ us, hus.append hr, hs us hseen⟩

/-- A new failure lies in the record where the old one lay, or where it is itself. -/
theorem remember {failure : Failure} (hb : Behind all rest ts failure.position)
    (hs : seen ts) : Recorded all rest seen c (c.remember failure) := by
  intro f hf
  cases hc : c.furthest with
  | none =>
    simp only [Cursor.remember, hc, Option.some.injEq] at hf
    exact Or.inr ⟨ts, hf ▸ hb, hs⟩
  | some previous =>
    simp only [Cursor.remember, hc, Option.some.injEq] at hf
    -- The merged failure lies at the further of the two positions.
    have hpos := Failure.position_merge previous failure
    rw [hf] at hpos
    rcases Nat.le_total previous.position failure.position with hle | hle
    · exact Or.inr ⟨ts, by rwa [hpos, Nat.max_eq_right hle], hs⟩
    · exact Or.inl ⟨previous, rfl, by rw [hpos, Nat.max_eq_left hle]⟩

end Recorded

end Fixity
