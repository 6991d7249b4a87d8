import Fixity.OperatorTable.Declaration
import Fixity.Proofs.Levels
import Fixity.Proofs.SourceAppend

/-! # Tables written and read back

What a text declares is told by the fields of its lines, apart from those that are blank or
start with a hash sign (`OperatorTable.declarations`).  Reading depends on nothing else: with
the same fields it gives the same table, or errors that differ at most in which line is
malformed (`OperatorTable.unplaced_ofText`).

The fields of a text that is put together from lines are those of the lines, and the fields of
a written operator are its symbol, its precedence and its associativity, from which it is read
back.  There is one exception.  A symbol may start with a hash sign, and then its line
declares nothing.  So reading a written table gives the operators with other symbols
(`OperatorTable.ofText_text_of_valid`).  No table that was read has such a symbol, and it is
read again from what is written for it (`OperatorTable.ofText_told_by_fields`).
-/
namespace Fixity

namespace Text

/-! ## Fields -/

/-- A text is cut at a blank, whatever stands on both sides. -/
theorem fields_append {c : Char} (h : isBlank c = true) (text text' : List Char) :
    fields (text ++ c :: text') = fields text ++ fields text' := by
  rw [fields, pieces_append h, List.filter_append]
  rfl

/-- A solid text is one field. -/
theorem fields_of_isSolid {text : List Char} (h : IsSolid text) : fields text = [text] := by
  rw [fields, pieces_of_forall h.2]
  simp [h.1]

/-- A text that starts with no blank starts with its first field. -/
theorem exists_fields_cons {c : Char} (h : isBlank c = false) (cs : List Char) :
    ∃ field rest, fields (c :: cs) = (c :: field) :: rest := by
  obtain ⟨piece, rest, hpieces⟩ := List.exists_cons_of_ne_nil (pieces_ne_nil isBlank cs)
  refine ⟨piece, rest.filter fun piece => !piece.isEmpty, ?_⟩
  rw [fields, pieces, h, if_neg Bool.false_ne_true, hpieces]
  rfl

theorem isSolid_int32Text (n : Int32) : IsSolid (int32Text n).toList := by
  have hdigits : ∀ k, ∀ c ∈ digits k, isBlank c = false := by
    intro k c hc
    apply not_isBlank_of_isAlphanum
    simp [Char.isAlphanum, isDigit_of_mem_digits hc]
  rw [int32Text, String.toList_ofList]
  cases n.toInt with
  | ofNat k => exact ⟨digits_ne_nil k, hdigits k⟩
  | negSucc k => exact ⟨List.cons_ne_nil _ _, List.forall_mem_cons.mpr ⟨by decide, hdigits _⟩⟩

end Text

open Text

/-! ## Written operators -/

namespace Operator

/-- **The fields that declare an operator.** -/
def declaration (op : Operator) : List (List Char) :=
  [op.symbol.toList, (int32Text op.precedence).toList, op.associativity.text.toList]

theorem toList_text (op : Operator) : op.text.toList = op.symbol.toList ++ ' ' ::
    ((int32Text op.precedence).toList ++ ' ' :: op.associativity.text.toList) := by
  simp [text]

theorem isSolid_associativity (a : Associativity) : IsSolid a.text.toList := by
  cases a <;> decide

section
variable {op : Operator} (h : OperatorTable.isSymbol op.symbol = true)
include h

theorem isSolid_symbol : IsSolid op.symbol.toList :=
  Token.Lexical.solid (t := .symbol op.symbol) (Or.inl ((OperatorTable.isSymbol_iff _).mp h)) nofun

/-- The fields of a written operator. -/
theorem fields_text : fields op.text.toList = op.declaration := by
  have hspace : isBlank ' ' = true := by decide
  rw [toList_text, fields_append hspace, fields_append hspace, fields_of_isSolid (isSolid_symbol h),
    fields_of_isSolid (isSolid_int32Text _), fields_of_isSolid (isSolid_associativity _)]
  rfl

/-- A written operator is one line without blanks at its ends. -/
theorem texts_text : Source.texts op.text = [op.text.toList] := by
  have hnl : '\n' ∉ op.text.toList := by
    rw [toList_text]
    simp only [List.mem_append, List.mem_cons, not_or]
    refine ⟨fun hc => ?_, by decide, fun hc => ?_, by decide, fun hc => ?_⟩
    · exact absurd ((isSolid_symbol h).2 _ hc) (by decide)
    · exact absurd ((isSolid_int32Text _).2 _ hc) (by decide)
    · exact absurd ((isSolid_associativity _).2 _ hc) (by decide)
  rw [Source.texts_of_notMem hnl, trim_eq_self]
  · intro c hc
    apply (isSolid_symbol h).2
    rw [toList_text, List.head?_append_of_ne_nil _ (isSolid_symbol h).1] at hc
    exact List.mem_of_head? hc
  · intro c hc
    obtain ⟨hne, hall⟩ := isSolid_associativity op.associativity
    have hsplit : op.text.toList = (op.symbol.toList ++ ' ' :: (int32Text op.precedence).toList ++
        [' ']) ++ op.associativity.text.toList := by
      rw [toList_text]
      simp
    rw [hsplit, List.getLast?_append_of_ne_nil _ hne] at hc
    exact hall c (List.mem_of_getLast? hc)

/-- A written operator declares something, unless its symbol starts with a hash sign. -/
theorem isPassedOver_text :
    OperatorTable.isPassedOver op.text.toList = decide (op.symbol.toList.head? = some '#') := by
  obtain ⟨c, cs, hsymbol⟩ := List.exists_cons_of_ne_nil (isSolid_symbol h).1
  rw [toList_text, hsymbol]
  simp [OperatorTable.isPassedOver]

end

end Operator

namespace OperatorTable

/-! ## Declarations -/

/-- **The declarations of a text**: the fields of each line that is not blank and does not
start with a hash sign. -/
def declarations (text : String) : List (List (List Char)) :=
  (((lines text.toList).map trim).filter fun line => !isPassedOver line).map fields

theorem declarations_eq_texts (text : String) : declarations text =
    ((Source.texts text).filter fun line => !isPassedOver line).map fields := by
  rw [declarations]
  rcases Source.texts_eq_lines text with h | h
  · rw [h]
  -- What stands behind the last line feed is empty, and declares nothing.
  · rw [h, List.filter_append]
    exact congrArg _ (List.append_nil _).symm

/-- The declarations of a text that goes on behind a line feed. -/
theorem declarations_append (a b : String) :
    declarations (a ++ "\n" ++ b) = declarations a ++ declarations b := by
  rw [declarations_eq_texts, Source.texts_append, List.filter_append, List.map_append,
    ← declarations_eq_texts, ← declarations_eq_texts]

theorem declarations_intercalate (texts : List String) :
    declarations ("\n".intercalate texts) = texts.flatMap declarations := by
  induction texts with
  | nil => rfl
  | cons text texts ih =>
    by_cases hne : texts = []
    · rw [hne, String.intercalate_singleton, List.flatMap_singleton]
    · rw [String.intercalate_cons_of_ne_nil hne, declarations_append, ih, List.flatMap_cons]

/-- **The declaration of a written operator.** -/
theorem declarations_operator {op : Operator} (h : isSymbol op.symbol = true) :
    declarations op.text =
      if op.symbol.toList.head? = some '#' then [] else [op.declaration] := by
  rw [declarations_eq_texts, Operator.texts_text h, List.filter_singleton,
    Operator.isPassedOver_text h]
  by_cases hhash : op.symbol.toList.head? = some '#'
  · simp [hhash]
  · simp [hhash, Operator.fields_text h]

/-- **The declarations of written operators.** -/
theorem declarations_operators {ops : List Operator} (h : ∀ op ∈ ops, isSymbol op.symbol = true) :
    ops.flatMap (fun op => declarations op.text) = (ops.filter fun op =>
      op.symbol.toList.head? ≠ some '#').map Operator.declaration := by
  induction ops with
  | nil => rfl
  | cons op ops ih =>
    obtain ⟨hop, hops⟩ := List.forall_mem_cons.mp h
    rw [List.flatMap_cons, declarations_operator hop, ih hops]
    by_cases hhash : op.symbol.toList.head? = some '#'
    · rw [if_pos hhash, List.filter_cons_of_neg (by simp [hhash]), List.nil_append]
    · rw [if_neg hhash, List.filter_cons_of_pos (by simp [hhash])]
      rfl

/-! ## Reading declarations -/

/-- The error without its place, if it is a malformed line. -/
def Error.unplaced : Error → Error
  | malformed _ _ => malformed 0 ""
  | error => error

/-- The operators that fields declare. -/
def ofDeclarations : List (List (List Char)) → Except Error (List Operator)
  | [] => .ok []
  | first :: rest =>
    (ofFields (.malformed 0 "") first).bind fun op => (ofDeclarations rest).map (op :: ·)

theorem unplaced_ofFields (line : Nat) (text : String) (fields : List (List Char)) :
    (ofFields (.malformed line text) fields).mapError Error.unplaced =
      ofFields (.malformed 0 "") fields := by
  unfold ofFields
  split
  · split
    · rfl
    · split <;> rfl
  · rfl

theorem unplaced_ofLines (ls : List (Nat × List Char)) :
    (ofLines ls).mapError Error.unplaced =
      ofDeclarations (((ls.map Prod.snd).filter fun line => !isPassedOver line).map fields) := by
  induction ls with
  | nil => rfl
  | cons entry ls ih =>
    obtain ⟨number, line⟩ := entry
    rw [ofLines]
    by_cases hpassed : isPassedOver line
    · simp [hpassed, ih]
    · simp [hpassed, ih, Source.mapError_bind, Source.mapError_map, unplaced_ofFields,
        ofDeclarations]

/-- **Reading a text is told by its declarations**, but for the place of a malformed line. -/
theorem unplaced_ofText (text : String) :
    (ofText text).mapError Error.unplaced =
      (ofDeclarations (declarations text)).bind fun operators =>
        ((mk operators).validate.map fun _ => mk operators).mapError Error.unplaced := by
  have htrimmed : ((numberedLines text.toList).map fun line => (line.1, trim line.2)).map Prod.snd =
      (lines text.toList).map trim := by
    rw [← map_snd_numberedLines, List.map_map, List.map_map]
    rfl
  rw [ofText, Source.mapError_bind, unplaced_ofLines, htrimmed]
  rfl

theorem mapError_eq_ok {ε ε' α : Type} (f : ε → ε') {r : Except ε α} {a : α} :
    r.mapError f = .ok a ↔ r = .ok a := by
  cases r <;> simp [Except.mapError]

/-- **When a text is read as a table.** -/
theorem ofText_eq_ok_iff {text : String} {table : OperatorTable} :
    ofText text = .ok table ↔
      ofDeclarations (declarations text) = .ok table.operators ∧ table.Valid := by
  rw [← mapError_eq_ok Error.unplaced, unplaced_ofText]
  obtain ⟨operators⟩ := table
  cases ofDeclarations (declarations text) with
  | error e => simp [Except.bind]
  | ok ops =>
    rw [Except.bind, mapError_eq_ok, Valid]
    cases hvalid : (mk ops).validate with
    | error e =>
      constructor
      · rintro ⟨⟩
      · rintro ⟨⟨⟩, hok⟩
        rw [hvalid] at hok
        cases hok
    | ok _ =>
      constructor
      · rintro ⟨⟩
        exact ⟨rfl, hvalid⟩
      · rintro ⟨⟨⟩, -⟩
        rfl

/-! ## Round trips -/

/-- A written operator is read back. -/
theorem ofFields_declaration (malformed : Error) (op : Operator) :
    ofFields malformed op.declaration = .ok op := by
  simp [Operator.declaration, ofFields, readInt32?_int32Text]

theorem ofDeclarations_map (ops : List Operator) :
    ofDeclarations (ops.map Operator.declaration) = .ok ops := by
  induction ops with
  | nil => rfl
  | cons op ops ih =>
    rw [List.map_cons, ofDeclarations, ofFields_declaration, ih]
    rfl

/-- A part of a valid table is valid. -/
theorem Valid.sublist {table : OperatorTable} (h : table.Valid) {ops : List Operator}
    (hops : ops.Sublist table.operators) : (mk ops).Valid := by
  obtain ⟨hnodup, hall⟩ := (valid_iff table).mp h
  exact (valid_iff _).mpr ⟨hnodup.sublist (hops.map _), fun op hop => hall op (hops.subset hop)⟩

/-- **A written table is read back**, but for the symbols that start with a hash sign. -/
theorem ofText_text_of_valid {table : OperatorTable} (h : table.Valid) :
    ofText table.text =
      .ok ⟨table.operators.filter fun op => op.symbol.toList.head? ≠ some '#'⟩ := by
  rw [ofText_eq_ok_iff, text, declarations_intercalate, List.flatMap_map,
    declarations_operators fun op hop => (((valid_iff table).mp h).2 op hop).2]
  exact ⟨ofDeclarations_map _, h.sublist List.filter_sublist⟩

/-- **Writing a table and reading it.**  A valid table is read back from its text exactly when
no symbol starts with a hash sign; otherwise the operators with other symbols are, in the same
order. -/
theorem ofText_text {table : OperatorTable} (h : table.Valid) :
    (ofText table.text = .ok table ↔
      ∀ op ∈ table.operators, op.symbol.toList.head? ≠ some '#') ∧
    ofText table.text =
      .ok ⟨table.operators.filter fun op => op.symbol.toList.head? ≠ some '#'⟩ := by
  refine ⟨?_, ofText_text_of_valid h⟩
  rw [ofText_text_of_valid h, Except.ok.injEq, OperatorTable.mk.injEq, List.filter_eq_self]
  simp only [decide_eq_true_eq]

/-- Precedences at both limits, and one symbol that starts with a hash sign. -/
theorem ofText_text_limits :
    let table : OperatorTable :=
      ⟨[.left "+" (-2147483648), .nonAssoc "#>" 0, .right ">#" 2147483647]⟩
    table.Valid ∧ table.text = "+ -2147483648 left\n#> 0 none\n># 2147483647 right" ∧
      ofText table.text = .ok ⟨[.left "+" (-2147483648), .right ">#" 2147483647]⟩ := by
  intro table
  have hvalid : table.Valid := by decide +kernel
  exact ⟨hvalid, by decide +kernel, (ofText_text hvalid).2⟩

/-- A valid table whose only operator is lost: its line is taken for a comment. -/
theorem ofText_text_hash :
    let table : OperatorTable := ⟨[.left "#" 5]⟩
    table.Valid ∧ ofText table.text = .ok ⟨[]⟩ ∧ ofText table.text ≠ .ok table := by
  decide +kernel

/-- No declaration starts with a hash sign. -/
theorem head_of_mem_declarations {text : String} {fields : List (List Char)}
    (h : fields ∈ declarations text) :
    ∃ c field rest, fields = (c :: field) :: rest ∧ c ≠ '#' := by
  obtain ⟨line, hline, rfl⟩ := List.mem_map.mp h
  obtain ⟨hmem, hpassed⟩ := List.mem_filter.mp hline
  obtain ⟨raw, -, htrim⟩ := List.mem_map.mp hmem
  cases line with
  | nil => cases hpassed
  | cons c cs =>
    have hblank : isBlank c = false := head_trim (by rw [htrim, List.head?_cons])
    obtain ⟨field, rest, hfields⟩ := exists_fields_cons hblank cs
    exact ⟨c, field, rest, hfields, by simpa [isPassedOver] using hpassed⟩

/-- The first of three fields is the symbol. -/
theorem symbol_of_ofFields {malformed : Error} {fields : List (List Char)} {op : Operator}
    (h : ofFields malformed fields = .ok op) : fields.head? = some op.symbol.toList := by
  unfold ofFields at h
  split at h
  · split at h
    · cases h
    · split at h
      · cases h
      · cases h
        simp
  · cases h

theorem symbol_of_ofDeclarations {declared : List (List (List Char))} {ops : List Operator}
    (h : ofDeclarations declared = .ok ops) :
    ∀ op ∈ ops, ∃ fields ∈ declared, fields.head? = some op.symbol.toList := by
  induction declared generalizing ops with
  | nil =>
    cases h
    exact nofun
  | cons first declared ih =>
    obtain ⟨op, ops, hfirst, hrest, rfl⟩ := Source.bind_cons_eq_ok h
    refine List.forall_mem_cons.mpr
      ⟨⟨first, List.mem_cons_self, symbol_of_ofFields hfirst⟩, fun op' hop' => ?_⟩
    obtain ⟨fields, hmem, hhead⟩ := ih hrest op' hop'
    exact ⟨fields, List.mem_cons_of_mem _ hmem, hhead⟩

/-- **No symbol of a table that was read starts with a hash sign.** -/
theorem head_symbol_of_ofText {text : String} {table : OperatorTable}
    (h : ofText text = .ok table) : ∀ op ∈ table.operators, op.symbol.toList.head? ≠ some '#' := by
  intro op hop
  obtain ⟨fields, hmem, hhead⟩ := symbol_of_ofDeclarations (ofText_eq_ok_iff.mp h).1 op hop
  obtain ⟨c, field, rest, rfl, hc⟩ := head_of_mem_declarations hmem
  rw [← Option.some.inj hhead]
  simpa using hc

/-- **Reading is told by fields, and its results are in normal form.**  Texts with the same
declarations give the same table, or errors that differ at most in which line is malformed.
A table that is read is valid, and it is read again from what is written for it. -/
theorem ofText_told_by_fields :
    (∀ a b : String, declarations a = declarations b →
      (ofText a).mapError Error.unplaced = (ofText b).mapError Error.unplaced) ∧
    (∀ (s : String) (table : OperatorTable), ofText s = .ok table →
      table.Valid ∧ ofText table.text = .ok table) := by
  constructor
  · intro a b h
    rw [unplaced_ofText, unplaced_ofText, h]
  · intro s table h
    have hvalid := (ofText_eq_ok_iff.mp h).2
    refine ⟨hvalid, ?_⟩
    rw [ofText_text_of_valid hvalid, List.filter_eq_self.mpr]
    intro op hop
    exact decide_eq_true (head_symbol_of_ofText h op hop)

/-- A text with signs, leading zeros and idle lines, and the text in normal form. -/
theorem ofText_told_by_fields_spellings :
    let table : OperatorTable := ⟨[.left "+" 6, .right "^" 7]⟩
    let padded := "# note\r\n\t+   +6 left\r\n\n ^ 007\tright\r\n"
    declarations "+ +6 left\n^ 007 right" = declarations padded ∧ ofText padded = .ok table ∧
      (ofText "+ +6 left\n^ 007 right").mapError Error.unplaced = .ok table ∧
      ofText "+ 6 left\n^ 7 right" = .ok table := by
  intro table padded
  have hfields : declarations "+ +6 left\n^ 007 right" = declarations padded := by decide +kernel
  have hread : ofText padded = .ok table := by decide +kernel
  have htext : table.text = "+ 6 left\n^ 7 right" := by decide +kernel
  refine ⟨hfields, hread, ?_, ?_⟩
  · rw [ofText_told_by_fields.1 _ _ hfields, hread]
    rfl
  · rw [← htext]
    exact (ofText_told_by_fields.2 _ _ hread).2

end OperatorTable

end Fixity
