import Fixity.Proofs.Scanning

/-! # Lines of code and their tokens

A source whose lines are all plain lines of code, without blanks at their ends and
none of them a comment, is taken apart into exactly these lines, and its tokens are
those of the lines (`Source.tokens_of_yields`).  The other way round, every token of a
source is lexical or a line break, and no string holds a line feed
(`Source.lexical_of_tokens`).
-/
namespace Fixity

namespace Text

/-- A line without a line feed, and the line feed behind it.  A carriage return at its
end would count as part of the line feed. -/
theorem lines_append {line : List Char} (hnl : '\n' ∉ line)
    (hcr : ∀ c, line.getLast? = some c → c ≠ '\r') (rest : List Char) :
    lines (line ++ '\n' :: rest) = line :: lines rest := by
  induction line with
  | nil => exact lines_newline rest
  | cons c cs ih =>
    rw [List.mem_cons, not_or] at hnl
    have hlast : ∀ d, cs.getLast? = some d → d ≠ '\r' := by
      intro d hd
      exact hcr d (by rw [List.getLast?_cons, hd, Option.getD_some])
    have hreturn : ∀ cs', c = '\r' → cs ++ '\n' :: rest = '\n' :: cs' → False := by
      intro cs' hc heq
      cases cs with
      | nil => exact hcr c rfl hc
      | cons d cs =>
        cases heq
        exact hnl.2 List.mem_cons_self
    rw [List.cons_append, lines.eq_4 c _ (fun h => hnl.1 h.symm) hreturn, ih hnl.2 hlast]
    rfl

/-- The last line. -/
theorem lines_of_notMem {line : List Char} (hne : line ≠ []) (hnl : '\n' ∉ line) :
    lines line = [line] := by
  induction line with
  | nil => exact absurd rfl hne
  | cons c cs ih =>
    rw [List.mem_cons, not_or] at hnl
    have hreturn : ∀ cs', c = '\r' → cs = '\n' :: cs' → False := by
      rintro cs' - rfl
      exact hnl.2 List.mem_cons_self
    rw [lines.eq_4 c cs (fun h => hnl.1 h.symm) hreturn]
    by_cases hcs : cs = []
    · rw [hcs]
      rfl
    · rw [ih hcs hnl.2]
      rfl

theorem dropWhile_isBlank {text : List Char}
    (h : ∀ c, text.head? = some c → isBlank c = false) : text.dropWhile isBlank = text := by
  cases text with
  | nil => rfl
  | cons c cs => simp [h c rfl]

/-- Where both ends are not blank, there is nothing to trim. -/
theorem trim_eq_self {text : List Char} (hfirst : ∀ c, text.head? = some c → isBlank c = false)
    (hlast : ∀ c, text.getLast? = some c → isBlank c = false) : trim text = text := by
  rw [trim, dropWhile_isBlank hfirst, trimEnd, dropWhile_isBlank, List.reverse_reverse]
  intro c hc
  exact hlast c (by rwa [List.head?_reverse] at hc)

/-- **A solid text**: it is not empty, and holds no blank. -/
def IsSolid (text : List Char) : Prop := text ≠ [] ∧ ∀ c ∈ text, isBlank c = false

instance (text : List Char) : Decidable (IsSolid text) :=
  decidable_of_iff ((!text.isEmpty && text.all fun c => !isBlank c) = true) (by simp [IsSolid])

theorem mem_of_mem_trim {text : List Char} {c : Char} (h : c ∈ trim text) : c ∈ text := by
  rw [trim, trimEnd, List.mem_reverse] at h
  have hsub := (List.dropWhile_sublist isBlank).subset h
  rw [List.mem_reverse] at hsub
  exact (List.dropWhile_sublist isBlank).subset hsub

end Text

open Text

/-! ## Texts that spell tokens within a line -/

/-- The printable characters of ASCII other than the space are not blank. -/
theorem not_isBlank {c : Char} (h : 33 ≤ c.toNat) (h' : c.toNat ≤ 126) : isBlank c = false := by
  refine Bool.eq_false_iff.mpr fun hb => ?_
  obtain ⟨range, hr, hlo, hhi⟩ := (CharSet.contains_iff blanks c).mp hb
  -- The ranges of blanks leave out the printable part of ASCII.
  have hall : ∀ range ∈ blankRanges, range.2 ≤ 32 ∨ 127 ≤ range.1 := by decide
  have := hall range hr
  omega

theorem not_isBlank_of_isAlphanum {c : Char} (h : c.isAlphanum = true) : isBlank c = false := by
  rcases Bool.or_eq_true_iff.mp h with h | h
  · have ha := bounds_of_isAlpha h
    exact not_isBlank (by omega) (by omega)
  · have hd := bounds_of_isDigit h
    exact not_isBlank (by omega) (by omega)

theorem not_isBlank_of_isWordPart {c : Char} (h : isWordPart c = true) : isBlank c = false := by
  simp only [isWordPart, Bool.or_eq_true, decide_eq_true_eq] at h
  rcases h with (h | rfl) | rfl
  · exact not_isBlank_of_isAlphanum h
  · decide
  · decide

theorem isWordPart_of_isWordStart {c : Char} (h : isWordStart c = true) : isWordPart c = true := by
  simp only [isWordStart, Bool.or_eq_true, decide_eq_true_eq] at h
  rcases h with h | h
  · simp [isWordPart, Char.isAlphanum, h]
  · simp [isWordPart, h]

theorem not_isBlank_of_isSymbolChar {c : Char} (h : isSymbolChar c = true) :
    isBlank c = false := by
  have hall : symbolChars.all (fun c => !isBlank c) = true := by decide
  simpa using List.all_eq_true.mp hall c (List.contains_iff_mem.mp h)

/-- **A spelling is solid**, unless it is that of a string. -/
theorem Token.Lexical.solid {t : Token} (h : t.Lexical) (hs : ∀ text, t ≠ .string text) :
    IsSolid t.spelling.toList := by
  cases t with
  | word w =>
    change IsWord w.toList at h
    show IsSolid w.toList
    cases htext : w.toList with
    | nil =>
      rw [htext] at h
      cases h
    | cons c cs =>
      rw [htext] at h
      refine ⟨List.cons_ne_nil _ _, List.forall_mem_cons.mpr ⟨?_, fun d hd => ?_⟩⟩
      · exact not_isBlank_of_isWordPart (isWordPart_of_isWordStart h.1)
      · exact not_isBlank_of_isWordPart (h.2 d hd)
  | integer digits =>
    refine ⟨h.1, fun c hc => not_isBlank_of_isAlphanum ?_⟩
    simp [Char.isAlphanum, h.2 c hc]
  | symbol s =>
    show IsSolid s.toList
    rcases h with h | h
    · exact ⟨h.1, fun c hc => not_isBlank_of_isSymbolChar (h.2 c hc)⟩
    · simp only [List.mem_cons, List.not_mem_nil, or_false] at h
      rcases h with rfl | rfl | rfl <;> decide
  | string text => exact absurd rfl (hs text)
  | newline => cases h

/-- Blanks that part the tokens of a line: at least one, and only spaces and tabs. -/
def IsSpacing (gap : List Char) : Prop := gap ≠ [] ∧ ∀ c ∈ gap, c = ' ' ∨ c = '\t'

instance (gap : List Char) : Decidable (IsSpacing gap) :=
  decidable_of_iff ((!gap.isEmpty && gap.all fun c => c = ' ' || c = '\t') = true)
    (by simp [IsSpacing])

/-- **A text spells tokens within a line**: it holds no line feed, and does not end in a
blank. -/
structure Spells (text : List Char) (ts : List Token) : Prop where
  scans : Scans text ts
  newline_notMem : '\n' ∉ text
  last_not_blank : ∃ c, text.getLast? = some c ∧ isBlank c = false

namespace Spells
variable {text text' : List Char} {ts us : List Token}

theorem ne_nil (h : Spells text ts) : text ≠ [] := by
  rintro rfl
  obtain ⟨c, hc, -⟩ := h.last_not_blank
  cases hc

/-- The spelling of one token. -/
theorem token {t : Token} (h : t.Lexical)
    (hnl : ∀ text, t = .string text → '\n' ∉ text.toList) : Spells t.spelling.toList [t] := by
  by_cases hs : ∃ text, t = .string text
  · obtain ⟨text, rfl⟩ := hs
    have hspell : (Token.string text).spelling.toList = ('"' :: text.toList) ++ ['"'] := by
      simp [Token.spelling]
    refine ⟨.token h, ?_, '"', ?_, by decide⟩
    · simp [hspell, hnl text rfl]
    · rw [hspell, List.getLast?_concat]
  · obtain ⟨hne, hall⟩ := h.solid (not_exists.mp hs)
    refine ⟨.token h, fun hmem => ?_, _, List.getLast?_eq_some_getLast hne, ?_⟩
    · exact absurd (hall _ hmem) (by decide)
    · exact hall _ (List.getLast_mem hne)

theorem word {w : String} (h : IsWord w.toList) : Spells w.toList [.word w] :=
  token (t := .word w) h nofun

theorem integer {digits : String} (h : IsInteger digits.toList) :
    Spells digits.toList [.integer digits] :=
  token (t := .integer digits) h nofun

theorem symbol {s : String} (h : IsOperator s.toList) :
    Spells s.toList [.symbol s] :=
  token (t := .symbol s) (Or.inl h) nofun

theorem string {body : String} (h : IsStringBody body.toList) (hnl : '\n' ∉ body.toList) :
    Spells (Token.string body).spelling.toList [.string body] :=
  token (t := .string body) h fun _ heq => Token.string.inj heq ▸ hnl

/-- One text, blanks and another text. -/
theorem gap {gap : List Char} (hgap : IsSpacing gap) (h : Spells text ts)
    (h' : Spells text' us) : Spells (text ++ (gap ++ text')) (ts ++ us) := by
  have hlayout : ∀ c ∈ gap, isLayout c = true ∧ c ≠ '\n' := by
    intro c hc
    rcases hgap.2 c hc with rfl | rfl <;> decide
  obtain ⟨c, hc, hb⟩ := h'.last_not_blank
  refine ⟨h.scans.gap hgap.1 (fun c hc => (hlayout c hc).1) h'.scans, ?_, c, ?_, hb⟩
  · rw [List.mem_append, List.mem_append]
    rintro (hmem | hmem | hmem)
    · exact h.newline_notMem hmem
    · exact (hlayout _ hmem).2 rfl
    · exact h'.newline_notMem hmem
  · rw [List.getLast?_append, List.getLast?_append, hc]
    rfl

/-- One text, a space and another text. -/
theorem space (h : Spells text ts) (h' : Spells text' us) :
    Spells (text ++ ' ' :: text') (ts ++ us) := by
  have hspace : IsSpacing [' '] := by decide
  exact h.gap hspace h'

/-- A text in parentheses. -/
theorem enclose (h : Spells text ts) :
    Spells ('(' :: (text ++ [')'])) (.symbol "(" :: (ts ++ [.symbol ")"])) where
  scans := h.scans.enclose
  newline_notMem := by simp [h.newline_notMem]
  last_not_blank := ⟨')', by rw [← List.cons_append, List.getLast?_concat], by decide⟩

/-- A text behind a backslash. -/
theorem backslash (h : Spells text ts) : Spells ('\\' :: text) (.symbol "\\" :: ts) := by
  obtain ⟨c, hc, hb⟩ := h.last_not_blank
  refine ⟨h.scans.backslash, ?_, c, ?_, hb⟩
  · simp [h.newline_notMem]
  · rw [List.getLast?_cons, hc]
    rfl

end Spells

/-! ## Plain lines -/

namespace Source

/-- **A plain line of code**: what trimming leaves as it is, in one line, and no
comment. -/
structure IsPlain (text : List Char) : Prop where
  ne_nil : text ≠ []
  newline_notMem : '\n' ∉ text
  head_not_blank : ∀ c, text.head? = some c → isBlank c = false
  last_not_blank : ∀ c, text.getLast? = some c → isBlank c = false
  not_comment : isComment text = false

/-- A plain line does not end in a carriage return, which is blank. -/
theorem IsPlain.last_ne_return {text : List Char} (h : IsPlain text) :
    ∀ c, text.getLast? = some c → c ≠ '\r' := by
  rintro c hc rfl
  exact absurd (h.last_not_blank _ hc) (by decide)

theorem lines_intercalate {texts : List (List Char)} (h : ∀ text ∈ texts, IsPlain text) :
    lines (['\n'].intercalate texts) = texts := by
  induction texts with
  | nil => rfl
  | cons text texts ih =>
    obtain ⟨htext, htexts⟩ := List.forall_mem_cons.mp h
    by_cases hne : texts = []
    · rw [hne, List.intercalate_singleton, lines_of_notMem htext.ne_nil htext.newline_notMem]
    · rw [List.intercalate_cons_of_ne_nil hne, List.append_assoc, List.singleton_append,
        lines_append htext.newline_notMem htext.last_ne_return, ih htexts]

/-- The texts of the lines of code. -/
theorem text_codeLines (source : String) :
    (codeLines source).map (·.text) = ((lines source.toList).map trim).filter isCode := by
  rw [codeLines, ← map_snd_numberedLines, List.map_map, List.filter_map, List.filter_map,
    List.map_map]
  rfl

/-- The lines of code of a text that consists of such lines. -/
theorem text_codeLines_of_isPlain {source : String} {texts : List (List Char)}
    (h : ∀ text ∈ texts, IsPlain text) (hs : source.toList = ['\n'].intercalate texts) :
    (codeLines source).map (·.text) = texts := by
  have htrim : texts.map trim = texts.map id := List.map_congr_left fun text htext =>
    trim_eq_self (h text htext).head_not_blank (h text htext).last_not_blank
  rw [List.map_id] at htrim
  rw [text_codeLines, hs, lines_intercalate h, htrim, List.filter_eq_self]
  intro text htext
  simp [isCode, (h text htext).ne_nil, (h text htext).not_comment]

theorem lexemes_of_yields {ls : List CodeLine} {pairs : List (List Char × List Token)}
    (hls : ls.map (·.text) = pairs.map Prod.fst) (h : ∀ pair ∈ pairs, Yields pair.1 pair.2) :
    ∃ lss, lexemes ls = .ok lss ∧ lss.map (·.map Lexeme.token) = pairs.map Prod.snd := by
  induction pairs generalizing ls with
  | nil =>
    rw [List.map_nil, List.map_eq_nil_iff] at hls
    subst hls
    exact ⟨[], rfl, rfl⟩
  | cons pair pairs ih =>
    cases ls with
    | nil => cases hls
    | cons l ls =>
      obtain ⟨htext, htexts⟩ := List.cons.inj hls
      obtain ⟨hpair, hpairs⟩ := List.forall_mem_cons.mp h
      obtain ⟨first, hscan, hfirst⟩ := hpair .origin
      obtain ⟨lss, hlss, hrest⟩ := ih htexts hpairs
      have hline : l.lexemes = .ok first := by
        rw [CodeLine.lexemes, show l.text = pair.1 from htext, hscan]
        rfl
      refine ⟨first :: lss, ?_, ?_⟩
      · rw [lexemes, hline, hlss]
        rfl
      · rw [List.map_cons, List.map_cons, hfirst, hrest]

/-- **The tokens of a source** that consists of plain lines. -/
theorem tokens_of_yields {source : String} (pairs : List (List Char × List Token))
    (h : ∀ pair ∈ pairs, IsPlain pair.1 ∧ Yields pair.1 pair.2)
    (hs : source.toList = ['\n'].intercalate (pairs.map Prod.fst)) :
    tokens source = .ok (joinLines (pairs.map Prod.snd)) := by
  have hplain : ∀ text ∈ pairs.map Prod.fst, IsPlain text := by
    intro text htext
    obtain ⟨pair, hpair, rfl⟩ := List.mem_map.mp htext
    exact (h pair hpair).1
  obtain ⟨lss, hlss, htoks⟩ := lexemes_of_yields (text_codeLines_of_isPlain hplain hs)
    fun pair hp => (h pair hp).2
  rw [tokens, hlss, ← htoks]
  rfl

/-! ## Tokens of any source -/

theorem newline_notMem_codeLines {source : String} {line : CodeLine}
    (h : line ∈ codeLines source) : '\n' ∉ line.text := by
  obtain ⟨numbered, hnumbered, rfl⟩ := List.mem_map.mp (List.mem_filter.mp h).1
  have hline : numbered.2 ∈ lines source.toList := by
    rw [← map_snd_numberedLines]
    exact List.mem_map_of_mem hnumbered
  exact fun hmem => newline_notMem_of_mem_lines hline (mem_of_mem_trim hmem)

/-- A list of results, of which none is an error. -/
theorem bind_cons_eq_ok {ε α : Type} {r : Except ε α} {rs : Except ε (List α)} {as : List α}
    (h : (r.bind fun a => rs.map (a :: ·)) = .ok as) :
    ∃ first rest, r = .ok first ∧ rs = .ok rest ∧ as = first :: rest := by
  cases r with
  | error e => cases h
  | ok first =>
    cases rs with
    | error e => cases h
    | ok rest =>
      cases h
      exact ⟨first, rest, rfl, rfl, rfl⟩

/-- The lexemes of several lines are those of each line. -/
theorem exists_of_mem_lexemes {ls : List CodeLine} {lss : List (List Lexeme)}
    (h : lexemes ls = .ok lss) {scanned : List Lexeme} (hmem : scanned ∈ lss) :
    ∃ line ∈ ls, line.lexemes = .ok scanned := by
  induction ls generalizing lss with
  | nil =>
    cases h
    cases hmem
  | cons line ls ih =>
    obtain ⟨first, rest, hfirst, hrest, rfl⟩ := bind_cons_eq_ok h
    rcases List.mem_cons.mp hmem with rfl | hmem
    · exact ⟨line, List.mem_cons_self, hfirst⟩
    · obtain ⟨line', hline', hscan⟩ := ih hrest hmem
      exact ⟨line', List.mem_cons_of_mem _ hline', hscan⟩

/-- Tokens are those of the lexemes of each line. -/
theorem exists_lexemes_of_tokens {source : String} {ts : List Token}
    (h : tokens source = .ok ts) : ∃ lss, lexemes (codeLines source) = .ok lss ∧
      ts = joinLines (lss.map (·.map Lexeme.token)) := by
  rw [tokens] at h
  cases hlss : lexemes (codeLines source) with
  | error e =>
    rw [hlss] at h
    cases h
  | ok lss =>
    rw [hlss] at h
    cases h
    exact ⟨lss, rfl, rfl⟩

theorem joinLines_cons (line : List Token) (lines : List (List Token)) :
    joinLines (line :: lines) = line ++ lines.flatMap (.newline :: ·) := by
  induction lines generalizing line with
  | nil => simp [joinLines, List.intercalate_singleton]
  | cons next lines ih =>
    rw [joinLines, List.intercalate_cons_cons, ← joinLines, ih, List.flatMap_cons]
    simp

theorem mem_joinLines {lines : List (List Token)} {t : Token} (h : t ∈ joinLines lines) :
    t = .newline ∨ ∃ line ∈ lines, t ∈ line := by
  induction lines with
  | nil => cases h
  | cons line lines ih =>
    by_cases hne : lines = []
    · rw [joinLines, hne, List.intercalate_singleton] at h
      exact Or.inr ⟨line, List.mem_cons_self, h⟩
    · rw [joinLines, List.intercalate_cons_of_ne_nil hne, List.mem_append, List.mem_append,
        List.mem_singleton] at h
      rcases h with (h | h) | h
      · exact Or.inr ⟨line, List.mem_cons_self, h⟩
      · exact Or.inl h
      · rcases ih h with h | ⟨line', hmem, h⟩
        · exact Or.inl h
        · exact Or.inr ⟨line', List.mem_cons_of_mem _ hmem, h⟩

/-- A string token is part of the text of its lexeme. -/
theorem mem_of_token_string {l : Lexeme} {text : String} (h : l.token = .string text) {c : Char}
    (hc : c ∈ text.toList) : c ∈ l.text := by
  unfold Lexeme.token at h
  split at h
  case h_3 =>
    cases h
    rw [String.toList_ofList] at hc
    exact List.mem_of_mem_tail ((List.dropLast_sublist _).subset hc)
  all_goals cases h

theorem scan_of_lexemes {line : CodeLine} {scanned : List Lexeme}
    (h : line.lexemes = .ok scanned) : Lexeme.scan line.text .origin = .ok scanned := by
  rw [CodeLine.lexemes] at h
  cases hs : Lexeme.scan line.text .origin with
  | error stuck =>
    rw [hs] at h
    cases h
  | ok ls =>
    rw [hs] at h
    cases h
    rfl

/-- A token that a source can hold: a line break, or a lexical token in one line. -/
def Holds (t : Token) : Prop :=
  t = .newline ∨ t.Lexical ∧ ∀ text, t = .string text → '\n' ∉ text.toList

/-- **Every token of a source** is a line break, or lexical and in one line. -/
theorem lexical_of_tokens {source : String} {ts : List Token} (h : tokens source = .ok ts) :
    ∀ t ∈ ts, Holds t := by
  obtain ⟨lss, hlss, rfl⟩ := exists_lexemes_of_tokens h
  have hall : ∀ scanned ∈ lss, ∀ l ∈ scanned, l.token.Lexical ∧ '\n' ∉ l.text := by
    intro scanned hscanned l hl
    obtain ⟨line, hline, hscan⟩ := exists_of_mem_lexemes hlss hscanned
    obtain ⟨hlex, hsub⟩ := Lexeme.lexical_of_scan (scan_of_lexemes hscan) l hl
    exact ⟨hlex, fun hmem => newline_notMem_codeLines hline (hsub _ hmem)⟩
  intro t ht
  rcases mem_joinLines ht with rfl | ⟨line, hline, hmem⟩
  · exact Or.inl rfl
  · obtain ⟨scanned, hscanned, rfl⟩ := List.mem_map.mp hline
    obtain ⟨l, hl, rfl⟩ := List.mem_map.mp hmem
    obtain ⟨hlex, hnl⟩ := hall scanned hscanned l hl
    exact Or.inr ⟨hlex, fun text htext hmem => hnl (mem_of_token_string htext hmem)⟩

end Source

end Fixity
