import Fixity.Proofs.Fuel
import Fixity.Proofs.Merging
import Fixity.Proofs.Reading

/-! # Combinators made of combinators

One or more items, items with delimiters between them, and the choice among several parsers
are loops of their own.  Each of them is the same parser as a composition of smaller ones
(`Parser.loops_eq_compositions`): the value or the failure, the cursor that is left behind
and its record are equal, wherever the parser is run.

Loops that add to a first value are the loop that collects, and how many turns a loop is
granted does not matter if its items read tokens (`Parser.many_eq_of_advances`).  Choices
agree because failures are merged in one order however they are grouped
(`Parser.or_assoc`).
-/
namespace Fixity

namespace Outcome
variable {α : Type}

/-- Going on after the failures of what went on after failures. -/
theorem recover_recover (o : Outcome α) (next next' : Failure → Cursor → Outcome α) :
    (o.recover next).recover next' = o.recover fun f c => (next f c).recover next' := by
  cases o with
  | ok v c => rfl
  | fail f c => cases hf : f.isFatal <;> simp [recover, hf]
  | stalled => rfl

/-- What goes on after failures sees recoverable ones only. -/
theorem recover_congr_of_recoverable {o : Outcome α} {next next' : Failure → Cursor → Outcome α}
    (h : ∀ f c, f.isFatal = false → next f c = next' f c) : o.recover next = o.recover next' := by
  cases o with
  | ok v c => rfl
  | fail f c => cases hf : f.isFatal <;> simp [recover, hf, h]
  | stalled => rfl

end Outcome

namespace Parser
variable {α β : Type} {p : Parser α}

/-! ## Loops -/

/-- A loop over items that read tokens has turns enough, whatever it is granted beyond them. -/
theorem many_eq_of_advances (hp : p.Advances) (spare spare' : Nat) :
    many spare p = many spare' p := by
  funext c
  have hsame : SameWithin c.remaining p p := fun _ _ => rfl
  have hturns : ∀ spare, c.remaining < c.turns spare := by
    intro spare
    rw [Cursor.turns]
    omega
  exact hsame.collect hp (Nat.le_refl _) (hturns spare) (hturns spare')

/-- What is read behind a delimiter reads a token more. -/
theorem Advances.behind {d : Parser β} (hd : d.Advances) (hp : p.Advances) :
    (map Prod.snd (seq d p)).Advances := by
  intro c v c' h
  obtain ⟨w, c₁, hseq, hmap⟩ := Outcome.bind_eq_ok.mp h
  cases hmap
  obtain ⟨b, c₂, hfirst, hsecond⟩ := Outcome.bind_eq_ok.mp hseq
  obtain ⟨a, c₃, hitem, hpair⟩ := Outcome.bind_eq_ok.mp hsecond
  cases hpair
  exact Nat.lt_trans (hp c₂ a _ hitem) (hd c b c₂ hfirst)

/-- **Items with delimiters between them** are, if there are any, one item and then zero or more
times a delimiter with an item behind it. -/
theorem sepBy_eq_optional (spare : Nat) (p : Parser α) (d : Parser β) :
    sepBy spare p d =
      map (fun items? => items?.getD [])
        (optional (map (fun items => items.1 :: items.2)
          (seq p (many spare (map Prod.snd (seq d p)))))) := by
  funext c
  rw [sepBy_apply]
  simp only [map, optional, seq]
  cases p c with
  | ok first c' =>
    cases hmany : many spare (map Prod.snd (seq d p)) c' with
    | ok items c'' => simp [hmany]
    | fail f c'' =>
      -- Behind an item, the loop fails only fatally, so that nothing is taken back.
      have hf : f.isFatal = true := Reads.isFatal_of_collect hmany
      simp [hmany, Outcome.recover_fatal hf]
    | stalled => simp [hmany]
  | fail f c' => cases hf : f.isFatal <;> simp [Outcome.recover, hf]
  | stalled => rfl

/-! ## Choices -/

/-- **Choice is associative.** -/
theorem or_assoc (p q r : Parser α) : or (or p q) r = or p (or q r) := by
  funext c
  simp only [or, Outcome.recover_recover]
  refine Outcome.recover_congr_of_recoverable fun f c₁ hf => ?_
  refine Outcome.recover_congr_of_recoverable fun g c₂ hg => ?_
  rw [Outcome.recover_recoverable (Failure.isFatal_merge hf hg)]
  refine Outcome.recover_congr_of_recoverable fun h c₃ hh => ?_
  rw [Outcome.recover_recoverable (Failure.isFatal_merge hg hh), Failure.merge_assoc]
  rfl

/-- Several parsers behind one are tried where it has failed. -/
theorem foldl_or_apply {ps : List (Parser α)} (hps : ps ≠ []) (p : Parser α) (c : Cursor) :
    ps.foldl or p c =
      (p c).recover fun f c' => tryEach c.position ps (some f) (c'.restore c.position) := by
  induction ps generalizing p with
  | nil => exact absurd rfl hps
  | cons q ps ih =>
    by_cases hne : ps = []
    · subst hne
      rfl
    · rw [List.foldl_cons, ih hne]
      simp only [or, Outcome.recover_recover, tryEach]
      refine Outcome.recover_congr_of_recoverable fun f c₁ hf => ?_
      refine Outcome.recover_congr_of_recoverable fun g c₂ hg => ?_
      rw [Outcome.recover_recoverable (Failure.isFatal_merge hf hg), Cursor.restore_restore]

/-- **A choice among several parsers** is a chain of choices among two, to the left. -/
theorem firstOf_eq_foldl {ps : List (Parser α)} (hps : ps ≠ []) (p : Parser α) :
    firstOf (p :: ps) = ps.foldl or p := by
  funext c
  exact (foldl_or_apply hps p c).symm

/-- A chain to the left is a chain to the right. -/
theorem foldl_or_eq_foldr (p : Parser α) (ps : List (Parser α)) (last : Parser α) :
    (ps ++ [last]).foldl or p = (p :: ps).foldr or last := by
  induction ps generalizing p with
  | nil => rfl
  | cons q ps ih =>
    rw [List.cons_append, List.foldl_cons, ih, List.foldr_cons, or_assoc]
    rfl

/-- It is such a chain to the right. -/
theorem firstOf_eq_foldr {ps : List (Parser α)} (hps : ps ≠ []) (last : Parser α) :
    firstOf (ps ++ [last]) = ps.foldr or last := by
  obtain ⟨p, ps, rfl⟩ := List.exists_cons_of_ne_nil hps
  rw [List.cons_append, firstOf_eq_foldl (by simp), foldl_or_eq_foldr]

/-! ## The compositions -/

/-- **Loops and choices are compositions.**  Where items and delimiters read tokens, one or more
items are an item and then zero or more, and items with delimiters between them are nothing,
or an item and then zero or more of a delimiter with an item behind it.  Choices among two or
more parsers are chains of choices among two, nested to the left or to the right, for choice
is associative.  The parsers are equal: they give the same value or failure from every
cursor, and leave the same cursor and record behind. -/
theorem loops_eq_compositions {d : Parser β} (hp : p.Advances) (hd : d.Advances)
    (spare spare' : Nat) :
    many1 spare p = seq p (many spare' p) ∧
    sepBy spare p d =
      map (fun items? => items?.getD [])
        (optional (map (fun items => items.1 :: items.2)
          (seq p (many spare' (map Prod.snd (seq d p)))))) ∧
    (∀ (first : Parser α) (others : List (Parser α)), others ≠ [] →
      firstOf (first :: others) = others.foldl or first) ∧
    (∀ (others : List (Parser α)) (last : Parser α), others ≠ [] →
      firstOf (others ++ [last]) = others.foldr or last) ∧
    ∀ q r s : Parser α, or (or q r) s = or q (or r s) := by
  refine ⟨?_, ?_, fun first _ h => firstOf_eq_foldl h first,
    fun _ last h => firstOf_eq_foldr h last, or_assoc⟩
  · rw [many1_eq_seq, many_eq_of_advances hp spare spare']
  · rw [sepBy_eq_optional, many_eq_of_advances (hd.behind hp) spare spare']

/-- Words with commas between them, of which the last has no word behind it, and words or
integers. -/
theorem loops_eq_compositions_words :
    let word : Parser String := token Token.word? "word"
    let comma : Parser String := token Token.symbol? "comma"
    let items : Parser (List String) :=
      map (fun items? => items?.getD [])
        (optional (map (fun items => items.1 :: items.2)
          (seq word (many 1 (map Prod.snd (seq comma word))))))
    let c := Cursor.start [.word "a", .symbol ",", .word "b", .symbol ",", .integer "1"]
    word.Advances ∧ comma.Advances ∧ sepBy 0 word comma = items ∧
      items c = .ok ["a", "b"] ((c.remember ⟨4, ["word"], some "integer '1'", .recoverable,
        .unexpected⟩).restore 3) ∧
      [comma] ≠ [] ∧ firstOf [word, comma] = or word comma := by
  intro word comma items c
  have hword : word.Advances := advances_token _ _
  have hcomma : comma.Advances := advances_token _ _
  obtain ⟨-, hsep, hleft, -⟩ := loops_eq_compositions hword hcomma 0 1
  refine ⟨hword, hcomma, hsep, ?_, List.cons_ne_nil _ _, hleft word [comma] (List.cons_ne_nil _ _)⟩
  decide +kernel

end Parser

end Fixity
