import Fixity.Proofs.Parsing

/-! # More operators

A table with more operators has more precedences, and those of the smaller table are found
among them in their order (`OperatorTable.precedences_sublist`).  Along that, every
derivation of the smaller language is one of the larger (`Grammar.Derives.carries`): a
precedence that is new adds no tail to the operands it stands around, and at one that both
have, the operators that were used are still there.

So operators can be added to a language without changing what its programs mean
(`Language.parse_extends`).
-/
namespace Fixity

/-! ## Derivations in a larger table -/

namespace Grammar
variable {table table' : OperatorTable}

/-- The tokens are the phrase in another table.  A phrase of some precedences is one of all
precedences that they are among. -/
def Carries (table' : OperatorTable) : Phrase → List Token → Prop
  | .operation ks e, ts => ∀ ks', ks.Sublist ks' → Derives table' (.operation ks' e) ts
  | .tails k tighter left e, ts =>
    ∀ tighter', tighter.Sublist tighter' → Derives table' (.tails k tighter' left e) ts
  | phrase, ts => Derives table' phrase ts

/-- An operand with the tails of a precedence, where others may stand around and between. -/
theorem carries_level {k : Int32} {tighter : List Int32} {left e : Expr} {ts us : List Token}
    (h : Carries table' (.operation tighter left) ts)
    (hs : Carries table' (.tails k tighter left e) us) :
    Carries table' (.operation (k :: tighter) e) (ts ++ us) := by
  intro ks' hsub
  induction ks' with
  | nil => cases hsub
  | cons k' ks' ih =>
    cases hsub with
    | cons _ hsub => simpa using Derives.level (ih hsub) .noTail
    | cons_cons _ hsub => exact .level (h ks' hsub) (hs ks' hsub)

/-- **A derivation is one in every larger table.** -/
theorem Derives.carries (h : table.operators ⊆ table'.operators) {phrase : Phrase}
    {ts : List Token} (hd : Derives table phrase ts) : Carries table' phrase ts := by
  induction hd with
  | word hw => exact .word hw
  | enclosed hop => exact .enclosed (h hop)
  | name _ ih => exact .name ih
  | integer => exact .integer
  | string => exact .string
  | group _ ih => exact .group ih
  | noArgument => exact .noArgument
  | argument _ _ ih ihs => exact .argument ih ihs
  | single _ ih => exact fun ks' _ => derives_of_term ih ks'
  | call _ _ ih ihs => exact fun ks' _ => derives_of_call (.call ih ihs) ks'
  | level _ _ ih ihs => exact carries_level ih ihs
  | noTail => exact fun _ _ => .noTail
  | leftTail hop _ _ ih ihs =>
    intro tighter' hsub
    exact .leftTail ⟨h hop.1, hop.2⟩ (ih tighter' hsub) (ihs tighter' hsub)
  | rightTail hop _ ih =>
    intro tighter' hsub
    exact .rightTail ⟨h hop.1, hop.2⟩ (ih _ (hsub.cons_cons _))
  | nonAssocTail hop _ ih =>
    intro tighter' hsub
    exact .nonAssocTail ⟨h hop.1, hop.2⟩ (ih tighter' hsub)
  | lambda hw _ ih => exact .lambda hw ih
  | operation hks _ ih =>
    obtain rfl := hks.eq_precedences
    exact derives_of_operation (ih _ (OperatorTable.precedences_sublist h))
  | binding _ _ ihx ihe => exact .binding ihx ihe
  | noFurther => exact .noFurther
  | further _ _ ih ihs => exact .further ih ihs
  | empty => exact .empty
  | program _ _ ih ihs => exact .program ih ihs

end Grammar

namespace Language
variable {L L' : Language}

/-- **Operators can be added to a language.**  If all operators of one are operators of
another, with the same precedence and associativity, in any order and with any others, then
the other parses what the first one parses, to the same program or expression. -/
theorem parse_extends (h : L.table.operators ⊆ L'.table.operators) (ts : List Token) :
    (∀ p, L.parse ts = .ok p → L'.parse ts = .ok p) ∧
    (∀ e, L.parseExpression ts = .ok e → L'.parseExpression ts = .ok e) := by
  constructor
  · intro p hp
    exact L'.parse_of_derives (.carries h (L.derives_of_parse hp))
  · intro e he
    exact L'.parseExpression_of_derives (.carries h (L.derives_of_parseExpression he))

/-- Sums alone. -/
def sums : Language := ⟨⟨[.left "+" 6]⟩, by decide +kernel⟩

/-- Sums with products, a negative precedence and a second operator beside the plus sign. -/
def arithmetic : Language :=
  ⟨⟨[.right "$" (-1), .left "*" 7, .right "-" 6, .left "+" 6]⟩, by decide +kernel⟩

/-- A sum keeps its shape where more operators are declared. -/
theorem parse_extends_sums :
    sums.parse [.word "let", .word "x", .symbol "=", .word "a", .symbol "+", .word "b"] =
      .ok ⟨[⟨.word "x", .operation "+" (.name (.word "a")) (.name (.word "b"))⟩]⟩ ∧
    arithmetic.parse [.word "let", .word "x", .symbol "=", .word "a", .symbol "+", .word "b"] =
      .ok ⟨[⟨.word "x", .operation "+" (.name (.word "a")) (.name (.word "b"))⟩]⟩ := by
  have hsums : sums.parse
      [.word "let", .word "x", .symbol "=", .word "a", .symbol "+", .word "b"] =
      .ok ⟨[⟨.word "x", .operation "+" (.name (.word "a")) (.name (.word "b"))⟩]⟩ := by
    decide +kernel
  have hsub : sums.table.operators ⊆ arithmetic.table.operators := by decide +kernel
  exact ⟨hsums, (parse_extends hsub _).1 _ hsums⟩

end Language

end Fixity
