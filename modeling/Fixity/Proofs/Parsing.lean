import Fixity.Proofs.Completeness

/-! # What parsing says of the tokens

A parse ends in one of three ways (`Verdict`): the tokens are a phrase, and the parse
returns it; or a phrase ends too early, and trailing input is reported behind it; or
the error is another one, and lies behind the beginning of a phrase.  Since every
phrase is found, the first of these describes the grammar exactly
(`Language.parse_eq_ok_iff_derives`).
-/
namespace Fixity

/-- **What a result says of the tokens**, where `done` phrases are complete and
`begun` ones want more. -/
inductive Verdict {α : Type} (done : List Token → α → Prop) (begun : List Token → Prop)
    (ts : List Token) : Except ParseError α → Prop where
  /-- The tokens are a phrase. -/
  | ok {v : α} (h : done ts v) : Verdict done begun ts (.ok v)
  /-- The tokens go on behind a phrase. -/
  | trailing {us r : List Token} {v : α} {expected : List String} {found : String}
      (hts : ts = us ++ r) (h : done us v) :
      Verdict done begun ts (.error (.trailing us.length expected found))
  /-- The tokens start like a phrase, up to the error. -/
  | unexpected {us r : List Token} {expected : List String} {found : String}
      (hts : ts = us ++ r) (h : begun us) :
      Verdict done begun ts (.error (.unexpected us.length expected found))

namespace Verdict
variable {α : Type} {done : List Token → α → Prop} {begun : List Token → Prop}
  {ts us : List Token}

/-- An error at a position behind the beginning of a phrase. -/
theorem of_begun {f : Failure} (hkind : f.kind = .unexpected)
    (hbehind : Behind ts ts us f.position) (hus : begun us) :
    Verdict done begun ts (.error f.toError) := by
  obtain ⟨r, hts, hpos⟩ := hbehind
  have hlen : f.position = us.length := by
    have := congrArg List.length hts
    rw [List.length_append] at this
    omega
  simp only [Failure.toError, hkind, hlen]
  exact .unexpected hts hus

/-- The error that is chosen for a failure about more that was wanted: a deeper record
is taken over only from beginnings. -/
theorem errorFor_of_begun {f : Failure} {c : Cursor} (hkind : f.kind = .unexpected)
    (hbehind : Behind ts ts us f.position) (hus : begun us)
    (hrec : ∀ g, c.furthest = some g → f.isFatal = false →
      ∃ vs, Behind ts ts vs g.position ∧ begun vs) :
    Verdict done begun ts (.error (c.errorFor f)) := by
  unfold Cursor.errorFor
  split
  · exact of_begun hkind hbehind hus
  · rename_i hf
    split
    · exact of_begun hkind hbehind hus
    · rename_i g hg
      obtain ⟨vs, hvs, hbegun⟩ := hrec g hg (Bool.eq_false_iff.mpr hf)
      -- Only trailing input takes over what the record expects.
      split
      · rename_i ht
        rw [hkind] at ht
        cases ht.1
      split
      · exact of_begun rfl hvs hbegun
      · exact of_begun hkind hbehind hus

/-- The error that is chosen for input behind a phrase: what was recorded behind the
end of the phrase are beginnings. -/
theorem errorFor_of_done {f : Failure} {c : Cursor} {r : List Token} {v : α}
    (hsoft : f.isFatal = false) (hkind : f.kind = .trailing) (hts : ts = us ++ r)
    (hpos : f.position = us.length) (hdone : done us v)
    (hrec : ∀ g, c.furthest = some g →
      ∃ vs, Behind ts ts vs g.position ∧ (begun vs ∨ vs.length ≤ us.length)) :
    Verdict done begun ts (.error (c.errorFor f)) := by
  have htrailing : ∀ expected, Verdict done begun ts
      (.error { f with expected := expected }.toError) := by
    intro expected
    simp only [Failure.toError, hkind, hpos]
    exact .trailing hts hdone
  unfold Cursor.errorFor
  rw [if_neg (by simp [hsoft])]
  split
  · exact htrailing f.expected
  · rename_i g hg
    split
    · exact htrailing g.expected
    split
    · rename_i hlt
      obtain ⟨vs, ⟨r', hr', hpos'⟩, hvs⟩ := hrec g hg
      -- Nothing complete that was read on the way is longer than the phrase itself.
      have hlen : us.length < vs.length := by
        have := congrArg List.length hr'
        rw [List.length_append] at this
        omega
      rcases hvs with hvs | hle
      · exact of_begun rfl ⟨r', hr', hpos'⟩ hvs
      · exact absurd hlen (Nat.not_lt.mpr hle)
    · exact htrailing f.expected

/-- **A parser to the end of the input.** -/
theorem toEnd {p : Parser α} (hp : p.Reads done begun (ts.length + 1)) :
    Verdict done begun ts (Parser.toEnd p (.start ts)).result := by
  have hat := Cursor.at_start ts
  have ho := hp ts ts _ hat (Nat.lt_succ_self _)
  unfold Parser.toEnd
  generalize p (.start ts) = o at ho
  cases ho with
  | @ok v c us r hts hc hdone hrec =>
    rw [Outcome.bind_ok]
    split
    · have hlen := hc.length
      rw [hts, List.length_append] at hlen
      refine errorFor_of_done (Cursor.isFatal_unmet c _) rfl hts ?_ hdone ?_
      · show (c.unmet _).position = us.length
        rw [Cursor.position_unmet]
        omega
      · intro g hg
        rcases hrec g hg with ⟨k, hk, -⟩ | ⟨vs, hbehind, hvs⟩
        · cases hk
        · exact ⟨vs, hbehind, hvs.imp_right fun h => h.1⟩
    · rename_i hend
      have hr : r = [] := Decidable.byContradiction fun hne => hend (hc.hasNext.mpr hne)
      subst hr
      rw [List.append_nil] at hts
      subst hts
      exact .ok hdone
  | @fail f c us htok hbehind hbegun hhard hkind hrec =>
    refine errorFor_of_begun hkind hbehind hbegun fun g hg hf => ?_
    rcases hrec g hg with ⟨k, hk, -⟩ | ⟨vs, hvs, hseen | ⟨hf', -⟩⟩
    · cases hk
    · exact ⟨vs, hvs, hseen⟩
    · rw [hf] at hf'
      cases hf'

/-- A change of the value. -/
theorem map {β : Type} {done' : List Token → β → Prop} {f : α → β} {result : Except ParseError α}
    (h : Verdict done begun ts result) (hd : ∀ ts v, done ts v → done' ts (f v)) :
    Verdict done' begun ts (result.map f) := by
  cases h with
  | ok h => exact .ok (hd _ _ h)
  | trailing hts h => exact .trailing hts (hd _ _ h)
  | unexpected hts h => exact .unexpected hts h

end Verdict

/-- A parser to the end of the input returns what it accepts there. -/
theorem Parser.Accepts.result_toEnd {α : Type} {p : Parser α} {ts : List Token} {v : α}
    (h : p.Accepts ts [] (· = v)) : (Parser.toEnd p (.start ts)).result = .ok v := by
  obtain ⟨_, c, hp, hc, rfl⟩ := h ts (.start ts) (by
    rw [List.append_nil]
    exact Cursor.at_start ts)
  have hend : ¬ c.hasNext = true := fun hn => hc.hasNext.mp hn rfl
  rw [Parser.toEnd, hp, Outcome.bind_ok, if_neg hend]
  rfl

namespace Language
variable (L : Language) {ts : List Token}

open Grammar (Derives Begins)

/-- A program is its bindings. -/
theorem parse_eq_map (ts : List Token) : L.parse ts =
    (((Rule.sepBy (Grammar.statement L.table (Grammar.expression L.table)) .newline).toEnd.eval 0
      .nil (.start ts)).result).map Program.mk := by
  show (Outcome.map _ _).result = _
  generalize (Rule.toEnd _).eval 0 .nil _ = o
  cases o <;> rfl

theorem verdict_parse (ts : List Token) :
    Verdict (fun ts p => Derives L.table (.program p) ts) (Begins L.table .program) ts
      (L.parse ts) := by
  rw [parse_eq_map]
  exact (Verdict.toEnd Grammar.reads_bindings).map fun _ _ => id

theorem verdict_parseExpression (ts : List Token) :
    Verdict (fun ts e => Derives L.table (.expression e) ts) (Begins L.table .expression) ts
      (L.parseExpression ts) :=
  .toEnd Grammar.reads_expression

theorem derives_of_parse {p : Program} (h : L.parse ts = .ok p) :
    Derives L.table (.program p) ts := by
  have hv := L.verdict_parse ts
  rw [h] at hv
  cases hv with
  | ok hp => exact hp

theorem parse_of_derives {p : Program} (h : Derives L.table (.program p) ts) :
    L.parse ts = .ok p := by
  rw [parse_eq_map]
  have hbs : Derives L.table (.program ⟨p.bindings⟩) ts := h
  show ((Parser.toEnd _ _).result).map _ = _
  rw [(Grammar.accepts_bindings L.valid hbs (Grammar.stops_nil _) (by simp)
    (by simp)).result_toEnd]
  rfl

theorem derives_of_parseExpression {e : Expr} (h : L.parseExpression ts = .ok e) :
    Derives L.table (.expression e) ts := by
  have hv := L.verdict_parseExpression ts
  rw [h] at hv
  cases hv with
  | ok he => exact he

theorem parseExpression_of_derives {e : Expr} (h : Derives L.table (.expression e) ts) :
    L.parseExpression ts = .ok e :=
  (Grammar.finds_expression L.valid ts e [] h (Grammar.stops_nil _)
    (Nat.lt_succ_self _)).result_toEnd

/-- **Parsing is the grammar.**  Tokens are parsed as a program exactly when they derive
it. -/
theorem parse_eq_ok_iff_derives (ts : List Token) (p : Program) :
    L.parse ts = .ok p ↔ Derives L.table (.program p) ts :=
  ⟨L.derives_of_parse, L.parse_of_derives⟩

/-- Differences fold to the left, and a call of two arguments is one operand. -/
theorem parse_eq_ok_iff_derives_standard :
    let ts : List Token := [.word "let", .word "x", .symbol "=", .word "a", .symbol "-",
      .word "b", .symbol "-", .word "f", .word "c", .integer "1"]
    let p : Program := ⟨[⟨.word "x", .call (.name (.operator "-"))
      [.call (.name (.operator "-")) [.name (.word "a"), .name (.word "b")],
        .call (.name (.word "f")) [.name (.word "c"), .literal (.integer "1")]]⟩]⟩
    standard.parse ts = .ok p ∧ Derives standard.table (.program p) ts := by
  intro ts p
  have hparse : standard.parse ts = .ok p := by decide +kernel
  exact ⟨hparse, (parse_eq_ok_iff_derives standard ts p).mp hparse⟩

end Language

end Fixity
