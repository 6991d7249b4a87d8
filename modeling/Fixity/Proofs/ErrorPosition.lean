import Mathlib.Order.Bounds.Defs
import Fixity.Proofs.Diagnosis
import Fixity.Proofs.GrammarTrace

/-! # Errors lie at the first token that cannot stand

Where nothing is committed, an error is as far to the right as it can be.  Suppose it lay
before the end of tokens `us` that some `vs` make complete.  Then the run has looked at no
token behind `us`, so the run on `us ++ vs` takes the same steps and stops where the first
one stopped (`Rule.Traced.le_position`).  But that run reads everything.

An error never lies further to the right than what can be completed
(`Grammar.Begins.completes`), so for expressions without backslashes its place is exact
(`Language.isGreatest_position`).
-/
namespace Fixity

/-- A run that fails nowhere fatally has looked at nothing behind the place where its
error is reported. -/
theorem Trace.within_of_reported {α : Type} {c : Cursor} {o : Outcome α} {n : Nat}
    (h : Trace c False o) (hstall : o ≠ .stalled) (hn : o.reported < n) : o.Within n := by
  cases h with
  | @ok v c' =>
    have hlt : max c'.position (c'.explored - 1) < n := hn
    refine ⟨?_, ?_⟩ <;> omega
  | @fail f c' _ _ _ _ hhard =>
    have hlt : max f.position (c'.explored - 1) < n := by
      simpa only [Outcome.reported, if_neg hhard] using hn
    show c'.explored ≤ n
    omega
  | stalled => exact absurd rfl hstall

/-- The window that two inputs with the same start have in common.  The first has as many
turns to spare as it may be shorter than the second. -/
def Window.ofAppend (may : Token → Prop) (us vs r : List Token) : Window may where
  outer := us ++ vs
  inner := us ++ r
  offset := 0
  size := us.length
  spare := r.length
  alike i hi := by
    rw [Nat.zero_add, List.getElem?_append_left hi, List.getElem?_append_left hi]
    exact Or.inl rfl
  turns := by
    simp only [List.length_append]
    omega

namespace Rule
variable {α : Type} {may opens : Token → Prop} {rule : Rule [] α} {us vs r : List Token}
  {good : α → Prop} {e : ParseError}

/-- **Errors do not lie inside of tokens that can be completed**, if there is nothing in
the input to commit to. -/
theorem Traced.le_position (h : rule.Traced may opens False) (hopens : ∀ t ∈ us ++ r, ¬ opens t)
    (hstall : rule.run (.start (us ++ r)) ≠ .stalled)
    (hgood : ∀ spare, (rule.eval spare .nil).Accepts (us ++ vs) [] good)
    (he : rule.toEnd.parse (us ++ r) = .error e) : us.length ≤ e.position := by
  have hnone : False ∨ (∃ t ∈ us ++ r, opens t) → False := by
    rintro (hf | ⟨t, ht, hopen⟩)
    · exact hf
    · exact hopens t ht hopen
  have htrace : Trace (.start (us ++ r)) False (rule.run (.start (us ++ r))) :=
    (h.tracks nofun).mono hnone _ rfl
  refine Nat.le_of_not_lt fun hlt => ?_
  rw [Parser.position_toEnd he] at hlt
  have hw := htrace.within_of_reported hstall hlt
  have hmirrors : (Window.ofAppend may us vs r).Mirrors (rule.eval r.length .nil)
      (rule.eval 0 .nil) := h.mirrors nofun
  have hag := hmirrors.agrees (.start (us ++ vs)) (.start (us ++ r))
    ⟨rfl, rfl, rfl, Nat.zero_le _, rfl⟩ hw
  obtain ⟨v, c, hc, hat, -⟩ := hgood r.length (us ++ vs) (.start (us ++ vs)) (by
    rw [List.append_nil]
    exact Cursor.at_start _)
  -- The completed tokens are read to their end, which lies behind `us`.
  rw [hc] at hag
  generalize hd : rule.eval 0 .nil (.start (us ++ r)) = o at hag
  cases hag with
  | @ok _ _ d hpair =>
    have hpos : c.position = 0 + d.position := hpair.position
    have hlen := hat.length
    have hin : d.position < us.length := by
      rw [run, hd] at hw
      exact hw.1
    rw [List.length_append] at hlen
    simp only [List.length_nil] at hlen
    omega

end Rule

namespace Language
variable (L : Language)

/-- A start of the tokens that can be completed is no longer than what is before the
error. -/
theorem le_position_parseExpression {ts us : List Token} {n : Nat} {x : Expr} {e : ParseError}
    (hts : .symbol "\\" ∉ ts) (h : L.parseExpression ts = .error e) (hn : n ≤ ts.length)
    (hx : L.parseExpression (ts.take n ++ us) = .ok x) : n ≤ e.position := by
  have hexpr : (Grammar.expression L.table : Rule [] Expr).Traced Token.InLine
      (· = .symbol "\\") False := Grammar.traced_expression rfl
  have hfinds : ∀ spare, ((Grammar.expression L.table).eval spare .nil).Accepts
      (ts.take n ++ us) [] (· = x) := fun _ =>
    Grammar.finds_expression L.valid _ x [] (L.derives_of_parseExpression hx)
      (Grammar.stops_nil _) (Nat.lt_succ_self _)
  have hlen : (ts.take n).length = n := List.length_take_of_le hn
  rw [← List.take_append_drop n ts] at hts h
  rw [← hlen]
  refine hexpr.le_position ?_ ?_ hfinds h
  · rintro t ht rfl
    exact hts ht
  · exact (Parser.Reads.within_start Grammar.reads_expression).ne_stalled

/-- **Errors in expressions lie at the first token that cannot stand.**  Without
backslashes, the tokens before an error are the longest start of an expression. -/
theorem isGreatest_position (ts : List Token) (e : ParseError) (hts : .symbol "\\" ∉ ts)
    (h : L.parseExpression ts = .error e) :
    IsGreatest {n | n ≤ ts.length ∧ ∃ us x, L.parseExpression (ts.take n ++ us) = .ok x}
        e.position ∧
      (e.position = ts.length ↔ ∃ us x, L.parseExpression (ts ++ us) = .ok x) := by
  have hv := L.verdict_parseExpression ts
  rw [h] at hv
  obtain ⟨hle, hkind⟩ := hv.error
  have hext : ∃ us x, L.parseExpression (ts.take e.position ++ us) = .ok x := by
    rcases hkind with ⟨-, -, x, hx⟩ | ⟨-, -, hbegun⟩
    · exact ⟨[], x, L.parseExpression_of_derives (by rwa [List.append_nil])⟩
    · obtain ⟨us, x, hx⟩ := hbegun.completes
      exact ⟨us, x, L.parseExpression_of_derives hx⟩
  have hub : ∀ n ≤ ts.length, (∃ us x, L.parseExpression (ts.take n ++ us) = .ok x) →
      n ≤ e.position := by
    rintro n hn ⟨us, x, hx⟩
    exact L.le_position_parseExpression hts h hn hx
  refine ⟨⟨⟨hle, hext⟩, fun n hn => hub n hn.1 hn.2⟩, fun heq => ?_, fun hex => ?_⟩
  · rwa [heq, List.take_length] at hext
  · exact Nat.le_antisymm hle (hub _ (Nat.le_refl _) (by rwa [List.take_length]))

/-- An operator without its right-hand side, where a parenthesis closes. -/
theorem isGreatest_position_standard :
    IsGreatest {n | n ≤ 4 ∧ ∃ us x, standard.parseExpression
      ([.symbol "(", .word "a", .symbol "+", .symbol ")"].take n ++ us) = .ok x} 3 := by
  have h : standard.parseExpression [.symbol "(", .word "a", .symbol "+", .symbol ")"] =
      .error (.unexpected 3 ["identifier", "'('", "literal", "expression"] "')'") := by
    decide +kernel
  exact (isGreatest_position standard _ _ (by decide) h).1

end Language

end Fixity
