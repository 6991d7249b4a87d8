import Fixity.OperatorTable
import Fixity.Source

/-! # Texts of tokens

Each kind of lexeme has a pattern, and a token is **lexical** when its text matches
the pattern of its kind (`Token.Lexical`).

Scanning goes both ways between the two.  Every lexeme of a text makes a lexical
token, out of characters of the text (`Lexeme.lexical_of_scan`).  And a text in which
lexical tokens are spelled yields these tokens, if each is followed by something that
cannot prolong it: the end, layout or a closing parenthesis (`Scans`).
-/
namespace Fixity

/-! ## Patterns -/

/-- The pattern of words. -/
def IsWord : List Char → Prop
  | [] => False
  | c :: cs => isWordStart c = true ∧ ∀ d ∈ cs, isWordPart d = true

/-- The pattern of integers. -/
def IsInteger (text : List Char) : Prop := text ≠ [] ∧ ∀ c ∈ text, c.isDigit = true

/-- The pattern of operators. -/
def IsOperator (text : List Char) : Prop := text ≠ [] ∧ ∀ c ∈ text, isSymbolChar c = true

instance (text : List Char) : Decidable (IsOperator text) :=
  decidable_of_iff ((!text.isEmpty && text.all isSymbolChar) = true) (by simp [IsOperator])

/-- The pattern of what stands between the quotes of a string: characters other than
quotes and backslashes, and backslashes each with a character other than a line feed. -/
inductive IsStringBody : List Char → Prop where
  | nil : IsStringBody []
  | plain {c : Char} {cs : List Char} (hq : c ≠ '"') (hb : c ≠ '\\') (h : IsStringBody cs) :
      IsStringBody (c :: cs)
  | escape {c : Char} {cs : List Char} (hc : c ≠ '\n') (h : IsStringBody cs) :
      IsStringBody ('\\' :: c :: cs)

/-- **The tokens that can be spelled**, but for line breaks. -/
def Token.Lexical : Token → Prop
  | .word w => IsWord w.toList
  | .symbol s => IsOperator s.toList ∨ s ∈ ["\\", "(", ")"]
  | .integer digits => IsInteger digits.toList
  | .string text => IsStringBody text.toList
  | .newline => False

/-! ## Character classes -/

/-- **The characters of declared symbols are those of scanned operators.** -/
theorem OperatorTable.mem_operatorChars {c : Char} :
    c ∈ operatorChars ↔ isSymbolChar c = true := by
  have hsub : operatorChars ⊆ symbolChars := by decide
  have hsup : symbolChars ⊆ operatorChars := by decide
  rw [isSymbolChar, List.contains_iff_mem]
  exact ⟨fun h => hsub h, fun h => hsup h⟩

/-- So a declared symbol is what is scanned as an operator. -/
theorem OperatorTable.isSymbol_iff (text : String) :
    isSymbol text = true ↔ IsOperator text.toList := by
  simp [isSymbol, IsOperator, mem_operatorChars]

theorem bounds_of_isDigit {c : Char} (h : c.isDigit = true) : 48 ≤ c.toNat ∧ c.toNat ≤ 57 := by
  obtain ⟨hl, hu⟩ := Bool.and_eq_true_iff.mp h
  exact ⟨of_decide_eq_true hl, of_decide_eq_true hu⟩

theorem bounds_of_isAlpha {c : Char} (h : c.isAlpha = true) : 65 ≤ c.toNat ∧ c.toNat ≤ 122 := by
  rcases Bool.or_eq_true_iff.mp h with hupper | hlower
  · have hu : 65 ≤ c.toNat ∧ c.toNat ≤ 90 := of_decide_eq_true hupper
    omega
  · obtain ⟨hl, hu⟩ := Bool.and_eq_true_iff.mp hlower
    have hl' : 97 ≤ c.toNat := of_decide_eq_true hl
    have hu' : c.toNat ≤ 122 := of_decide_eq_true hu
    omega

theorem not_isWordStart_of_isDigit {c : Char} (h : c.isDigit = true) : isWordStart c = false := by
  have hd := bounds_of_isDigit h
  refine Bool.eq_false_iff.mpr fun hs => ?_
  rcases Bool.or_eq_true_iff.mp hs with hs | hs
  · have ha := bounds_of_isAlpha hs
    omega
  · rw [of_decide_eq_true hs] at h
    exact absurd h (by decide)

/-- Operators share no first character with the kinds before them. -/
theorem class_of_isSymbolChar {c : Char} (h : isSymbolChar c = true) :
    isWordStart c = false ∧ c.isDigit = false := by
  have hall : symbolChars.all (fun c => !isWordStart c && !c.isDigit) = true := by decide
  simpa using List.all_eq_true.mp hall c (List.contains_iff_mem.mp h)

namespace Lexeme

/-- No lexeme starts with layout. -/
theorem take?_of_isLayout {c : Char} (h : isLayout c = true) (cs : List Char) :
    take? (c :: cs) = none := by
  simp only [isLayout, Bool.or_eq_true, decide_eq_true_eq] at h
  rcases h with (((rfl | rfl) | rfl) | rfl) | rfl <;> rfl

/-! ## The steps of a scan -/

theorem scan_layout {c : Char} (h : isLayout c = true) (cs : List Char) (place : Place) :
    scan (c :: cs) place = scan cs (place.skip c) := by
  rw [scan, if_pos h]

theorem scan_take {cs : List Char} {taken : Taken} (h : take? cs = some taken) (place : Place) :
    scan cs place = (scan taken.rest (place.advance taken.text)).map
      (⟨taken.kind, taken.text, place, place.advance taken.text⟩ :: ·) := by
  cases cs with
  | nil => cases h
  | cons c cs =>
    -- A lexeme starts here, so this is no layout to skip.
    have hc : ¬ isLayout c = true := by
      intro hc
      rw [take?_of_isLayout hc] at h
      cases h
    rw [scan, if_neg hc]
    split
    · rename_i hnone
      rw [h] at hnone
      cases hnone
    · rename_i taken' htaken
      rw [h] at htaken
      cases htaken
      rfl

theorem scan_take_eq_ok {cs : List Char} {taken : Taken} (htake : take? cs = some taken)
    {place : Place} {ls : List Lexeme} (h : scan cs place = .ok ls) :
    ∃ rest, scan taken.rest (place.advance taken.text) = .ok rest ∧
      ls = ⟨taken.kind, taken.text, place, place.advance taken.text⟩ :: rest := by
  rw [scan_take htake] at h
  cases hrest : scan taken.rest (place.advance taken.text) with
  | error stuck =>
    rw [hrest] at h
    cases h
  | ok rest =>
    rw [hrest] at h
    cases h
    exact ⟨rest, rfl, rfl⟩

theorem scan_stuck {c : Char} {cs : List Char} (hc : ¬ isLayout c = true)
    (h : take? (c :: cs) = none) (place : Place) :
    scan (c :: cs) place = .error ⟨place.offset, c :: cs⟩ := by
  rw [scan, if_neg hc]
  split
  · rfl
  · rename_i htaken
    rw [h] at htaken
    cases htaken

/-! ## Strings -/

/-- The string up to its closing quote. -/
theorem closeQuote?_append {body : List Char} (h : IsStringBody body) (rest : List Char) :
    closeQuote? (body ++ '"' :: rest) = some (body ++ ['"'], rest) := by
  induction h with
  | nil => rfl
  | @plain c cs hq hb _ ih =>
    rw [List.cons_append, closeQuote?.eq_4 _ _ hq (fun _ _ hc => absurd hc hb), if_neg hb, ih]
    rfl
  | escape hc _ ih =>
    simp only [List.cons_append, closeQuote?, if_neg hc, ih]
    rfl

/-- What stands before the closing quote matches the pattern. -/
theorem isStringBody_of_closeQuote? {cs : List Char} {split : List Char × List Char}
    (h : closeQuote? cs = some split) : ∃ body, split.1 = body ++ ['"'] ∧ IsStringBody body := by
  induction cs using closeQuote?.induct generalizing split with
  | case1 => cases h
  | case2 rest =>
    simp only [closeQuote?, Option.some.injEq] at h
    subst h
    exact ⟨[], rfl, .nil⟩
  | case3 rest => simp [closeQuote?] at h
  | case4 c rest hc ih =>
    simp only [closeQuote?, hc, if_false, Option.map_eq_some_iff] at h
    obtain ⟨inner, hinner, rfl⟩ := h
    obtain ⟨body, hbody, hb⟩ := ih hinner
    exact ⟨'\\' :: c :: body, by simp [hbody], .escape hc hb⟩
  | case5 c hq hb =>
    rw [closeQuote?.eq_4 _ _ hq hb, if_pos rfl] at h
    cases h
  | case6 c rest hq hb hc ih =>
    rw [closeQuote?.eq_4 _ _ hq hb, if_neg hc, Option.map_eq_some_iff] at h
    obtain ⟨inner, hinner, rfl⟩ := h
    obtain ⟨body, hbody, hb'⟩ := ih hinner
    exact ⟨c :: body, by simp [hbody], .plain hq hc hb'⟩

/-! ## From lexemes to patterns -/

theorem forall_mem_takeWhile (p : Char → Bool) (cs : List Char) :
    ∀ c ∈ cs.takeWhile p, p c = true :=
  List.all_eq_true.mp List.all_takeWhile

/-- **The pattern of the lexemes of each kind.** -/
def Kind.Matches : Kind → List Char → Prop
  | .word, text => IsWord text
  | .integer, text => IsInteger text
  | .quoted, text => ∃ body, text = '"' :: (body ++ ['"']) ∧ IsStringBody body
  | .operator, text => IsOperator text
  | .backslash, text => text = ['\\']
  | .leftParen, text => text = ['(']
  | .rightParen, text => text = [')']

/-- **What is taken matches the pattern of its kind.** -/
theorem matches_of_take? {cs : List Char} {taken : Taken} (h : take? cs = some taken) :
    taken.kind.Matches taken.text := by
  cases cs with
  | nil => cases h
  | cons c cs =>
    simp only [take?] at h
    split at h
    · rename_i hc
      cases h
      exact ⟨hc, forall_mem_takeWhile isWordPart cs⟩
    split at h
    · rename_i hc
      cases h
      exact ⟨List.cons_ne_nil _ _,
        List.forall_mem_cons.mpr ⟨hc, forall_mem_takeWhile Char.isDigit cs⟩⟩
    split at h
    · rename_i hc
      cases h
      exact ⟨List.cons_ne_nil _ _,
        List.forall_mem_cons.mpr ⟨hc, forall_mem_takeWhile isSymbolChar cs⟩⟩
    split at h
    · rename_i hc
      obtain ⟨split, hsplit, rfl⟩ := Option.map_eq_some_iff.mp h
      obtain ⟨body, hbody, hb⟩ := isStringBody_of_closeQuote? hsplit
      exact ⟨body, by simp only [hc, hbody], hb⟩
    -- What is left are the lexemes of one character.
    split at h
    · rename_i hc
      cases h
      exact congrArg (fun d => [d]) hc
    split at h
    · rename_i hc
      cases h
      exact congrArg (fun d => [d]) hc
    split at h
    · rename_i hc
      cases h
      exact congrArg (fun d => [d]) hc
    · cases h

/-- A lexeme that matches its pattern makes a lexical token, whose spelling is its text. -/
theorem lexical_of_matches {kind : Kind} {text : List Char} (h : kind.Matches text)
    (start stop : Place) :
    (⟨kind, text, start, stop⟩ : Lexeme).token.Lexical ∧
      (⟨kind, text, start, stop⟩ : Lexeme).token.spelling.toList = text := by
  cases kind with
  | word =>
    refine ⟨?_, String.toList_ofList⟩
    show IsWord (String.ofList text).toList
    rwa [String.toList_ofList]
  | integer =>
    refine ⟨?_, String.toList_ofList⟩
    show IsInteger (String.ofList text).toList
    rwa [String.toList_ofList]
  | quoted =>
    obtain ⟨body, rfl, hbody⟩ := h
    constructor
    · show IsStringBody (String.ofList (body ++ ['"']).dropLast).toList
      rwa [List.dropLast_concat, String.toList_ofList]
    · simp [token, Token.spelling]
  | operator =>
    refine ⟨Or.inl ?_, String.toList_ofList⟩
    rwa [String.toList_ofList]
  | backslash | leftParen | rightParen =>
    cases h
    exact ⟨Or.inr (by simp), String.toList_ofList⟩

/-- **Every lexeme of a text makes a lexical token** out of characters of the text. -/
theorem lexical_of_scan {text : List Char} {place : Place} {ls : List Lexeme}
    (h : scan text place = .ok ls) :
    ∀ l ∈ ls, l.token.Lexical ∧ ∀ c ∈ l.text, c ∈ text := by
  induction text, place using scan.induct generalizing ls with
  | case1 place =>
    rw [scan] at h
    cases h
    simp
  | case2 place c cs hc ih =>
    rw [scan, if_pos hc] at h
    intro l hl
    obtain ⟨hlex, htext⟩ := ih h l hl
    exact ⟨hlex, fun d hd => List.mem_cons_of_mem c (htext d hd)⟩
  | case3 place c cs hc htake =>
    rw [scan_stuck hc htake] at h
    cases h
  | case4 place c cs hc taken htake hlt ih =>
    obtain ⟨rest, hrest, rfl⟩ := scan_take_eq_ok htake h
    have htext := append_of_take? htake
    intro l hl
    rcases List.mem_cons.mp hl with rfl | hl
    · refine ⟨(lexical_of_matches (matches_of_take? htake) place _).1, fun d hd => ?_⟩
      rw [← htext]
      exact List.mem_append_left _ hd
    · obtain ⟨hlex, hsub⟩ := ih hrest l hl
      refine ⟨hlex, fun d hd => ?_⟩
      rw [← htext]
      exact List.mem_append_right _ (hsub d hd)

/-! ## From patterns to lexemes -/

/-- A run of characters that cannot be prolonged. -/
theorem takeRun_append (kind : Kind) {p : Char → Bool} (c : Char) {cs rest : List Char}
    (hcs : ∀ d ∈ cs, p d = true) (hrest : ∀ d, rest.head? = some d → p d = false) :
    takeRun kind p c (cs ++ rest) = ⟨kind, c :: cs, rest⟩ := by
  have hstop : rest.takeWhile p = [] ∧ rest.dropWhile p = rest := by
    cases rest with
    | nil => exact ⟨rfl, rfl⟩
    | cons d rest => simp [hrest d rfl]
  rw [takeRun, List.takeWhile_append_of_pos hcs, List.dropWhile_append_of_pos hcs, hstop.1,
    hstop.2, List.append_nil]

/-- What can follow a lexeme without prolonging it: the end, layout or a closing
parenthesis. -/
def Delimits (rest : List Char) : Prop :=
  ∀ c, rest.head? = some c → isLayout c = true ∨ c = ')'

theorem Delimits.notMem {rest : List Char} (h : Delimits rest) {p : Char → Bool}
    (hp : [' ', '\t', '\n', '\x0C', '\r', ')'].all (fun c => !p c) = true) :
    ∀ c, rest.head? = some c → p c = false := by
  intro c hc
  have hmem : c ∈ [' ', '\t', '\n', '\x0C', '\r', ')'] := by
    rcases h c hc with hlayout | rfl
    · simp only [isLayout, Bool.or_eq_true, decide_eq_true_eq] at hlayout
      rcases hlayout with (((rfl | rfl) | rfl) | rfl) | rfl <;> decide
    · decide
  simpa using List.all_eq_true.mp hp c hmem

/-- **The lexeme of a lexical token** is its spelling. -/
theorem take?_spelling {t : Token} (h : t.Lexical) {rest : List Char} (hrest : Delimits rest) :
    ∃ kind, take? (t.spelling.toList ++ rest) = some ⟨kind, t.spelling.toList, rest⟩ ∧
      ∀ start stop, (⟨kind, t.spelling.toList, start, stop⟩ : Lexeme).token = t := by
  cases t with
  | word w =>
    refine ⟨.word, ?_, fun _ _ => congrArg Token.word String.ofList_toList⟩
    show take? (w.toList ++ rest) = some ⟨.word, w.toList, rest⟩
    change IsWord w.toList at h
    cases htext : w.toList with
    | nil =>
      rw [htext] at h
      cases h
    | cons c cs =>
      rw [htext] at h
      rw [List.cons_append, take?, if_pos h.1,
        takeRun_append .word c h.2 (hrest.notMem (by decide))]
  | symbol s =>
    show ∃ kind, take? (s.toList ++ rest) = some ⟨kind, s.toList, rest⟩ ∧ _
    rcases h with hs | hs
    · refine ⟨.operator, ?_, fun _ _ => congrArg Token.symbol String.ofList_toList⟩
      obtain ⟨hne, hall⟩ := hs
      cases htext : s.toList with
      | nil => exact absurd htext hne
      | cons c cs =>
        rw [htext, List.forall_mem_cons] at hall
        obtain ⟨hc, hcs⟩ := hall
        obtain ⟨hword, hdigit⟩ := class_of_isSymbolChar hc
        rw [List.cons_append, take?, if_neg (by simp [hword]), if_neg (by simp [hdigit]),
          if_pos hc, takeRun_append .operator c hcs (hrest.notMem (by decide))]
    · simp only [List.mem_cons, List.not_mem_nil, or_false] at hs
      rcases hs with rfl | rfl | rfl
      · exact ⟨.backslash, rfl, fun _ _ => rfl⟩
      · exact ⟨.leftParen, rfl, fun _ _ => rfl⟩
      · exact ⟨.rightParen, rfl, fun _ _ => rfl⟩
  | integer digits =>
    refine ⟨.integer, ?_, fun _ _ => congrArg Token.integer String.ofList_toList⟩
    show take? (digits.toList ++ rest) = some ⟨.integer, digits.toList, rest⟩
    obtain ⟨hne, hall⟩ := h
    cases htext : digits.toList with
    | nil => exact absurd htext hne
    | cons c cs =>
      rw [htext, List.forall_mem_cons] at hall
      obtain ⟨hc, hcs⟩ := hall
      rw [List.cons_append, take?, if_neg (by simp [not_isWordStart_of_isDigit hc]), if_pos hc,
        takeRun_append .integer c hcs (hrest.notMem (by decide))]
  | string text =>
    have hspell : (Token.string text).spelling.toList = '"' :: (text.toList ++ ['"']) := by
      simp [Token.spelling]
    rw [hspell]
    refine ⟨.quoted, ?_, fun _ _ => ?_⟩
    · have hclose := closeQuote?_append h rest
      simp only [List.cons_append, List.append_assoc, List.nil_append]
      rw [take?, if_neg (by decide), if_neg (by decide), if_neg (by decide), if_pos rfl, hclose]
      rfl
    · show Token.string (String.ofList (text.toList ++ ['"']).dropLast) = .string text
      rw [List.dropLast_concat, String.ofList_toList]
  | newline => cases h

end Lexeme

/-! ## Texts that spell tokens -/

/-- **The tokens of a text**, wherever it stands. -/
def Yields (text : List Char) (ts : List Token) : Prop :=
  ∀ place, ∃ ls, Lexeme.scan text place = .ok ls ∧ ls.map Lexeme.token = ts

/-- **A text spells tokens**: wherever it cannot be prolonged, it yields these tokens in
front of what follows. -/
def Scans (text : List Char) (ts : List Token) : Prop :=
  ∀ rest us, Lexeme.Delimits rest → Yields rest us → Yields (text ++ rest) (ts ++ us)

theorem yields_nil : Yields [] [] := by
  intro place
  exact ⟨[], by rw [Lexeme.scan], rfl⟩

theorem Yields.layout {c : Char} {cs : List Char} {ts : List Token} (hc : isLayout c = true)
    (h : Yields cs ts) : Yields (c :: cs) ts := by
  intro place
  rw [Lexeme.scan_layout hc]
  exact h _

theorem Yields.gap {gap cs : List Char} {ts : List Token} (hgap : ∀ c ∈ gap, isLayout c = true)
    (h : Yields cs ts) : Yields (gap ++ cs) ts := by
  induction gap with
  | nil => exact h
  | cons c gap ih =>
    obtain ⟨hc, hgap⟩ := List.forall_mem_cons.mp hgap
    exact (ih hgap).layout hc

theorem Yields.take {cs : List Char} {ts : List Token} {t : Token} (taken : Lexeme.Taken)
    (hcs : Lexeme.take? cs = some taken)
    (ht : ∀ start stop, (⟨taken.kind, taken.text, start, stop⟩ : Lexeme).token = t)
    (h : Yields taken.rest ts) : Yields cs (t :: ts) := by
  intro place
  obtain ⟨ls, hls, hts⟩ := h (place.advance taken.text)
  rw [Lexeme.scan_take hcs, hls]
  exact ⟨_, rfl, by rw [List.map_cons, ht, hts]⟩

theorem yields_of_scans {text : List Char} {ts : List Token} (h : Scans text ts) :
    Yields text ts := by
  have hall := h [] [] (fun c hc => by cases hc) yields_nil
  rwa [List.append_nil, List.append_nil] at hall

namespace Scans
variable {text text' : List Char} {ts us : List Token}

/-- The spelling of one token. -/
theorem token {t : Token} (h : t.Lexical) : Scans t.spelling.toList [t] := by
  intro rest us hrest hus
  obtain ⟨kind, htake, ht⟩ := Lexeme.take?_spelling h hrest
  exact Yields.take _ htake ht hus

/-- One text, layout and another text. -/
theorem gap {gap : List Char} (hne : gap ≠ []) (hgap : ∀ c ∈ gap, isLayout c = true)
    (h : Scans text ts) (h' : Scans text' us) : Scans (text ++ (gap ++ text')) (ts ++ us) := by
  intro rest vs hrest hvs
  rw [List.append_assoc, List.append_assoc, List.append_assoc]
  apply h
  · obtain ⟨d, gap, rfl⟩ := List.exists_cons_of_ne_nil hne
    rintro c ⟨⟩
    exact Or.inl (hgap d List.mem_cons_self)
  · exact (h' rest vs hrest hvs).gap hgap

/-- A text in parentheses. -/
theorem enclose (h : Scans text ts) :
    Scans ('(' :: (text ++ [')'])) (.symbol "(" :: (ts ++ [.symbol ")"])) := by
  intro rest us _ hus
  have hclose : Yields (')' :: rest) (.symbol ")" :: us) :=
    Yields.take ⟨.rightParen, [')'], rest⟩ rfl (fun _ _ => rfl) hus
  have hinner := h _ _ (fun c hc => by cases hc; exact Or.inr rfl) hclose
  have hopen : Yields ('(' :: (text ++ ')' :: rest)) (.symbol "(" :: (ts ++ .symbol ")" :: us)) :=
    Yields.take ⟨.leftParen, ['('], text ++ ')' :: rest⟩ rfl (fun _ _ => rfl) hinner
  simpa using hopen

/-- A text behind a backslash, which needs no space. -/
theorem backslash (h : Scans text ts) : Scans ('\\' :: text) (.symbol "\\" :: ts) := by
  intro rest us hrest hus
  exact Yields.take ⟨.backslash, ['\\'], text ++ rest⟩ rfl (fun _ _ => rfl)
    (h rest us hrest hus)

end Scans

end Fixity
