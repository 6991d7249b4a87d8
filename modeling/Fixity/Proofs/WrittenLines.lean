import Fixity.Proofs.SourceAppend

/-! # Tokens and the lines they are written in

A text writes tokens when it holds their spellings in order, with a gap between each two of
them (`Writes`).  What may stand in a gap is a parameter, and scanning is told by two
choices of it.

With at least one space or tab in every gap, no token can run into the next one, whatever
the tokens are.  So the tokens are read back from lines that are written like this, unless
the first of them would make its line a comment (`Source.tokens_of_written`).

With any layout in the gaps, and none where none is needed, every line that can be scanned
is a line that writes its tokens (`Lexeme.writes_of_scan`).  So the lines of code of a source
and the tokens between line breaks tell each other: no text is lost, and none is made up
(`Source.written_of_tokens`).
-/
namespace Fixity

open Text

/-- **A text writes tokens**: it is their spellings, with a gap between each two. -/
inductive Writes (IsGap : List Char → Prop) : List Token → List Char → Prop where
  | last (t : Token) : Writes IsGap [t] t.spelling.toList
  | cons (t : Token) {gap : List Char} {ts : List Token} {text : List Char} (hgap : IsGap gap)
      (h : Writes IsGap ts text) : Writes IsGap (t :: ts) (t.spelling.toList ++ (gap ++ text))

/-- Layout between two tokens, or nothing. -/
def IsLayoutRun (gap : List Char) : Prop := ∀ c ∈ gap, isLayout c = true

/-! ## From tokens to texts -/

/-- A spelling starts with no blank. -/
theorem Token.Lexical.head_not_blank {t : Token} (h : t.Lexical) :
    ∃ c cs, t.spelling.toList = c :: cs ∧ isBlank c = false := by
  by_cases hs : ∃ text, t = .string text
  · obtain ⟨text, rfl⟩ := hs
    exact ⟨'"', text.toList ++ ['"'], by simp [Token.spelling], by decide⟩
  · obtain ⟨hne, hall⟩ := h.solid (not_exists.mp hs)
    obtain ⟨c, cs, htext⟩ := List.exists_cons_of_ne_nil hne
    exact ⟨c, cs, htext, hall c (by rw [htext]; exact List.mem_cons_self)⟩

namespace Source

/-- What stands before the first blank of a comment. -/
theorem takeWhile_of_isComment {text : List Char} (h : isComment text = true) :
    text.takeWhile (fun c => !isBlank c) = ['-', '-'] := by
  unfold isComment at h
  split at h
  · decide
  · rename_i c rest _
    have hyphen : isBlank '-' = false := by decide
    simp [hyphen, h]
  · cases h

/-- No line that starts with a spelling is a comment, but for the symbol of comments. -/
theorem isComment_spelling {t : Token} (h : t.Lexical) (ht : t ≠ .symbol "--") {rest : List Char}
    (hrest : ∀ c, rest.head? = some c → isBlank c = true) :
    isComment (t.spelling.toList ++ rest) = false := by
  by_cases hs : ∃ text, t = .string text
  · obtain ⟨text, rfl⟩ := hs
    have hquote : (Token.string text).spelling.toList = '"' :: (text.toList ++ ['"']) := by
      simp [Token.spelling]
    rw [hquote]
    rfl
  · refine Bool.eq_false_iff.mpr fun hcomment => ht ?_
    have hall : ∀ c ∈ t.spelling.toList, (!isBlank c) = true := by
      intro c hc
      rw [(h.solid (not_exists.mp hs)).2 c hc]
      rfl
    have hstop : rest.takeWhile (fun c => !isBlank c) = [] := by
      cases rest with
      | nil => rfl
      | cons c rest => simp [hrest c rfl]
    -- The spelling is what stands before the first blank, and that is two hyphens.
    have hhyphens := takeWhile_of_isComment hcomment
    rw [List.takeWhile_append_of_pos hall, hstop, List.append_nil] at hhyphens
    cases t with
    | symbol s => rw [show s = "--" from String.toList_injective hhyphens]
    | word w =>
      change IsWord w.toList at h
      rw [show w.toList = ['-', '-'] from hhyphens] at h
      exact absurd h.1 (by decide)
    | integer digits =>
      change IsInteger digits.toList at h
      rw [show digits.toList = ['-', '-'] from hhyphens] at h
      exact absurd (h.2 '-' List.mem_cons_self) (by decide)
    | string text => exact absurd ⟨text, rfl⟩ hs
    | newline => cases h

/-- **A line of tokens that can be written**: they are lexical, no string holds a line feed,
and the first is not the symbol of comments. -/
structure Writable (line : List Token) : Prop where
  lexical : ∀ t ∈ line, t.Lexical
  newline_notMem : ∀ text, .string text ∈ line → '\n' ∉ text.toList
  not_comment : line.head? ≠ some (.symbol "--")

end Source

namespace Writes
variable {ts : List Token} {text : List Char}

/-- Blanks keep the spellings apart. -/
theorem spells (h : Writes IsSpacing ts text) (hlex : ∀ t ∈ ts, t.Lexical)
    (hnl : ∀ s, .string s ∈ ts → '\n' ∉ s.toList) : Spells text ts := by
  induction h with
  | last t =>
    refine .token (hlex t List.mem_cons_self) ?_
    rintro s rfl
    exact hnl s List.mem_cons_self
  | cons t hgap _ ih =>
    obtain ⟨ht, hts⟩ := List.forall_mem_cons.mp hlex
    have hfirst : Spells t.spelling.toList [t] := by
      refine .token ht ?_
      rintro s rfl
      exact hnl s List.mem_cons_self
    exact hfirst.gap hgap (ih hts fun s hs => hnl s (List.mem_cons_of_mem t hs))

/-- The first token, and the end or a blank behind it. -/
theorem exists_first (h : Writes IsSpacing ts text) :
    ∃ t us rest, ts = t :: us ∧ text = t.spelling.toList ++ rest ∧
      ∀ c, rest.head? = some c → isBlank c = true := by
  cases h with
  | last t => exact ⟨t, [], [], rfl, (List.append_nil _).symm, nofun⟩
  | @cons t gap ts text hgap h =>
    refine ⟨t, ts, gap ++ text, rfl, rfl, ?_⟩
    obtain ⟨d, gap, rfl⟩ := List.exists_cons_of_ne_nil hgap.1
    rintro c ⟨⟩
    rcases hgap.2 d List.mem_cons_self with rfl | rfl <;> decide

/-- **A line that writes tokens is a plain line of code.** -/
theorem isPlain (h : Writes IsSpacing ts text) (hts : Source.Writable ts) :
    Source.IsPlain text := by
  have hspells := h.spells hts.lexical hts.newline_notMem
  obtain ⟨t, us, rest, rfl, rfl, hrest⟩ := h.exists_first
  have ht : t.Lexical := hts.lexical t List.mem_cons_self
  refine ⟨hspells.ne_nil, hspells.newline_notMem, ?_, ?_, ?_⟩
  · obtain ⟨c, cs, hspelling, hblank⟩ := ht.head_not_blank
    rw [hspelling]
    rintro d ⟨⟩
    exact hblank
  · obtain ⟨c, hlast, hblank⟩ := hspells.last_not_blank
    rw [hlast]
    rintro d ⟨⟩
    exact hblank
  · exact Source.isComment_spelling ht (fun heq => hts.not_comment (by rw [heq]; rfl)) hrest

end Writes

namespace Source

/-- Written lines, each with its tokens. -/
theorem exists_pairs {ls : List (List Token)} {written : List String}
    (hls : ∀ line ∈ ls, Writable line)
    (h : List.Forall₂ (fun line text => Writes IsSpacing line text.toList) ls written) :
    ∃ pairs : List (List Char × List Token),
      pairs.map Prod.fst = written.map String.toList ∧ pairs.map Prod.snd = ls ∧
        ∀ pair ∈ pairs, IsPlain pair.1 ∧ Yields pair.1 pair.2 := by
  induction h with
  | nil => exact ⟨[], rfl, rfl, nofun⟩
  | @cons line text ls written hline _ ih =>
    obtain ⟨hwritable, hls⟩ := List.forall_mem_cons.mp hls
    obtain ⟨pairs, hfst, hsnd, hpairs⟩ := ih hls
    have hspells := hline.spells hwritable.lexical hwritable.newline_notMem
    refine ⟨(text.toList, line) :: pairs, by simp [hfst], by simp [hsnd], ?_⟩
    exact List.forall_mem_cons.mpr
      ⟨⟨hline.isPlain hwritable, yields_of_scans hspells.scans⟩, hpairs⟩

/-- **Scanning undoes writing.**  Lines that write tokens, with spaces and tabs between them,
are scanned to these tokens, with one line break between two lines. -/
theorem tokens_of_written {ls : List (List Token)} {written : List String}
    (hls : ∀ line ∈ ls, Writable line)
    (h : List.Forall₂ (fun line text => Writes IsSpacing line text.toList) ls written) :
    tokens ("\n".intercalate written) = .ok ([Token.newline].intercalate ls) := by
  obtain ⟨pairs, hfst, rfl, hpairs⟩ := exists_pairs hls h
  apply tokens_of_yields pairs hpairs
  rw [String.toList_intercalate, hfst]
  rfl

/-- A string with the marks of a comment in it, and the symbol of comments behind it. -/
theorem tokens_of_written_hyphens :
    let ls : List (List Token) :=
      [[.string "-- \\\"", .symbol "--"], [.symbol "\\", .word "x'", .symbol "->"]]
    let written := ["\"-- \\\"\" \t--", "\\\tx' ->"]
    (∀ line ∈ ls, Writable line) ∧
    List.Forall₂ (fun line text => Writes IsSpacing line text.toList) ls written ∧
    tokens "\"-- \\\"\" \t--\n\\\tx' ->" =
      .ok [.string "-- \\\"", .symbol "--", .newline, .symbol "\\", .word "x'", .symbol "->"] := by
  intro ls written
  have hstring : Token.Lexical (.string "-- \\\"") :=
    .plain (by decide) (by decide) (.plain (by decide) (by decide)
      (.plain (by decide) (by decide) (.escape (by decide) .nil)))
  have hword : Token.Lexical (.word "x'") := ⟨rfl, List.all_eq_true.mp rfl⟩
  have hsymbol : ∀ s ∈ ["--", "\\", "->"], Token.Lexical (.symbol s) := by
    simp only [Token.Lexical]
    decide
  have hls : ∀ line ∈ ls, Writable line := by
    refine List.forall_mem_cons.mpr ⟨⟨?_, by simp, by decide⟩,
      List.forall_mem_singleton.mpr ⟨?_, by simp, by decide⟩⟩
    · exact List.forall_mem_cons.mpr
        ⟨hstring, List.forall_mem_singleton.mpr (hsymbol "--" (by decide))⟩
    · exact List.forall_mem_cons.mpr ⟨hsymbol "\\" (by decide), List.forall_mem_cons.mpr
        ⟨hword, List.forall_mem_singleton.mpr (hsymbol "->" (by decide))⟩⟩
  have hspace : IsSpacing [' '] := by decide
  have htab : IsSpacing ['\t'] := by decide
  have hboth : IsSpacing [' ', '\t'] := by decide
  have hwritten : List.Forall₂ (fun line text => Writes IsSpacing line text.toList) ls written :=
    .cons (.cons _ hboth (.last _)) (.cons (.cons _ htab (.cons _ hspace (.last _))) .nil)
  have htokens := tokens_of_written hls hwritten
  rw [show "\n".intercalate written = "\"-- \\\"\" \t--\n\\\tx' ->" by decide] at htokens
  exact ⟨hls, hwritten, htokens⟩

end Source

/-! ## From texts to tokens -/

/-- One token more: the layout behind it is the gap to the next one, if there is one. -/
theorem Writes.behind (t : Token) {ts : List Token} {rest : List Char}
    (h : rest = [] ∧ ts = [] ∨ Writes IsLayoutRun ts (rest.dropWhile isLayout)) :
    Writes IsLayoutRun (t :: ts) (t.spelling.toList ++ rest) := by
  rcases h with ⟨rfl, rfl⟩ | h
  · rw [List.append_nil]
    exact .last t
  · rw [← List.takeWhile_append_dropWhile (p := isLayout) (l := rest)]
    exact .cons t (List.all_eq_true.mp List.all_takeWhile) h

namespace Lexeme

/-- **A text that can be scanned writes its tokens**, from its first lexeme on, if it does not
end in layout. -/
theorem writes_of_scan {text : List Char} {place : Place} {ls : List Lexeme}
    (h : scan text place = .ok ls) (hlast : ∀ c, text.getLast? = some c → isLayout c = false) :
    text = [] ∧ ls.map Lexeme.token = [] ∨
      Writes IsLayoutRun (ls.map Lexeme.token) (text.dropWhile isLayout) := by
  -- Along the scan: layout in front is dropped, and layout behind a lexeme is a gap, since
  -- the text does not end with it.
  induction text, place using scan.induct generalizing ls with
  | case1 place =>
    rw [scan] at h
    cases h
    exact Or.inl ⟨rfl, rfl⟩
  | case2 place c cs hc ih =>
    rw [scan_layout hc] at h
    by_cases hcs : cs = []
    · subst hcs
      rw [hlast c rfl] at hc
      cases hc
    · rw [List.getLast?_cons_of_ne_nil hcs] at hlast
      rw [List.dropWhile_cons_of_pos hc]
      exact Or.inr ((ih h hlast).resolve_left fun hnil => hcs hnil.1)
  | case3 place c cs hc htake =>
    rw [scan_stuck hc htake] at h
    cases h
  | case4 place c cs hc taken htake hlt ih =>
    obtain ⟨rest, hrest, rfl⟩ := scan_take_eq_ok htake h
    have hbehind : ∀ d, taken.rest.getLast? = some d → isLayout d = false := by
      intro d hd
      apply hlast
      rw [← append_of_take? htake, List.getLast?_append, hd]
      rfl
    have hwrites := Writes.behind (token ⟨taken.kind, taken.text, place, place.advance taken.text⟩)
      (ih hrest hbehind)
    rw [(lexical_of_matches (matches_of_take? htake) _ _).2, append_of_take? htake] at hwrites
    rw [List.dropWhile_cons_of_neg hc]
    exact Or.inr hwrites

end Lexeme

namespace Source

/-- The tokens between line breaks; there are none where there are no tokens. -/
def segments (ts : List Token) : List (List Token) :=
  if ts = [] then [] else ts.splitOn .newline

/-- Lines that are joined are the segments of what they make. -/
theorem segments_joinLines {ls : List (List Token)}
    (h : ∀ line ∈ ls, line ≠ [] ∧ Token.newline ∉ line) : segments (joinLines ls) = ls := by
  have hnil := joinLines_eq_nil_iff fun line hline => (h line hline).1
  unfold segments
  by_cases hls : ls = []
  · rw [if_pos (hnil.mpr hls), hls]
  · rw [if_neg (mt hnil.mp hls)]
    exact List.splitOn_intercalate _ (fun line hline => (h line hline).2) hls

/-- **A line of code writes its tokens.** -/
theorem CodeLine.writes {source : String} {line : CodeLine} (hmem : line ∈ codeLines source)
    {scanned : List Lexeme} (h : line.lexemes = .ok scanned) :
    Writes IsLayoutRun (scanned.map Lexeme.token) line.text := by
  obtain ⟨c, cs, htext, hblank⟩ := exists_cons_of_mem_codeLines hmem
  have hlast : ∀ d, line.text.getLast? = some d → isLayout d = false := by
    intro d hd
    obtain ⟨entry, -, rfl⟩ := List.mem_map.mp (List.mem_filter.mp hmem).1
    exact Bool.eq_false_iff.mpr (not_isLayout (last_trim hd))
  rcases Lexeme.writes_of_scan (scan_of_lexemes h) hlast with ⟨hnil, -⟩ | hwrites
  · rw [htext] at hnil
    cases hnil
  · rwa [htext, List.dropWhile_cons_of_neg (not_isLayout hblank), ← htext] at hwrites

/-- Lines of code write their tokens, one by one. -/
theorem forall₂_writes {source : String} {ls : List CodeLine} {lss : List (List Lexeme)}
    (hls : ∀ line ∈ ls, line ∈ codeLines source) (h : lexemes ls = .ok lss) :
    List.Forall₂ (Writes IsLayoutRun) (lss.map (·.map Lexeme.token)) (ls.map (·.text)) := by
  induction ls generalizing lss with
  | nil =>
    cases h
    exact .nil
  | cons line ls ih =>
    obtain ⟨first, rest, hfirst, hrest, rfl⟩ := bind_cons_eq_ok h
    obtain ⟨hline, hls⟩ := List.forall_mem_cons.mp hls
    exact .cons (CodeLine.writes hline hfirst) (ih hls hrest)

/-- **Scanning loses no text and makes none up.**  The tokens between line breaks and the
lines of code, trimmed, belong to each other one by one: each line is the spellings of its
tokens, with nothing but layout between them.  Every token is lexical and in one line. -/
theorem written_of_tokens {source : String} {ts : List Token} (h : tokens source = .ok ts) :
    List.Forall₂ (Writes IsLayoutRun) (segments ts)
        (((lines source.toList).map trim).filter isCode) ∧
      ∀ t ∈ ts, Holds t := by
  refine ⟨?_, lexical_of_tokens h⟩
  obtain ⟨lss, hlss, rfl⟩ := exists_lexemes_of_tokens h
  rw [segments_joinLines (forall_mem_lines hlss), ← text_codeLines]
  exact forall₂_writes (fun line hline => hline) hlss

/-- Two lines of code, without blanks where none are needed, and what stands around them. -/
theorem written_of_tokens_padded :
    tokens " f(x)\t+1\r\n-- note\n\n\"a\\\"\"-2 " =
      .ok [.word "f", .symbol "(", .word "x", .symbol ")", .symbol "+", .integer "1", .newline,
        .string "a\\\"", .symbol "-", .integer "2"] ∧
    List.Forall₂ (Writes IsLayoutRun)
      [[.word "f", .symbol "(", .word "x", .symbol ")", .symbol "+", .integer "1"],
        [.string "a\\\"", .symbol "-", .integer "2"]]
      ["f(x)\t+1".toList, "\"a\\\"\"-2".toList] := by
  have htokens : tokens " f(x)\t+1\r\n-- note\n\n\"a\\\"\"-2 " =
      .ok [.word "f", .symbol "(", .word "x", .symbol ")", .symbol "+", .integer "1", .newline,
        .string "a\\\"", .symbol "-", .integer "2"] := by decide +kernel
  have hlines : ((lines " f(x)\t+1\r\n-- note\n\n\"a\\\"\"-2 ".toList).map trim).filter isCode =
      ["f(x)\t+1".toList, "\"a\\\"\"-2".toList] := by decide +kernel
  have hwritten := (written_of_tokens htokens).1
  rw [hlines] at hwritten
  exact ⟨htokens, hwritten⟩

end Source

end Fixity
