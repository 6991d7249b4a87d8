import Mathlib.Data.List.Forall2
import Mathlib.Data.List.TakeWhile
import Fixity.Proofs.SourceLines

/-! # Sources one behind the other

The tokens of a source are told by its lines of code, and these by what stands between its
line feeds, trimmed (`Source.codeLines_eq`): a carriage return before a line feed is blank,
and so is what stands behind the last one.  What stands between line feeds is cut where a
source is continued on a new line, and so are the lines of code, whose numbers go on
counting (`Source.codeLines_append`).

A line of code has at least one lexeme.  So tokens never start or end with a line break and
never have two in a row, and one is put between two sources exactly where both have tokens
(`Source.tokens_append`).
-/
namespace Fixity

namespace Text

/-! ## Pieces -/

theorem pieces_ne_nil (divides : Char → Bool) (text : List Char) : pieces divides text ≠ [] := by
  intro h
  have hlength := length_pieces divides text
  rw [h] at hlength
  exact absurd hlength (by simp)

theorem pushFront_append {parts : List (List Char)} (h : parts ≠ []) (c : Char)
    (parts' : List (List Char)) : pushFront c (parts ++ parts') = pushFront c parts ++ parts' := by
  obtain ⟨part, parts, rfl⟩ := List.exists_cons_of_ne_nil h
  rfl

/-- **A text is cut at a divider**, whatever stands on both sides. -/
theorem pieces_append {divides : Char → Bool} {c : Char} (h : divides c = true)
    (text text' : List Char) :
    pieces divides (text ++ c :: text') = pieces divides text ++ pieces divides text' := by
  induction text with
  | nil => exact pieces_cons_of_divides h text'
  | cons d text ih =>
    rw [List.cons_append, pieces, pieces, ih]
    split
    · rfl
    · exact pushFront_append (pieces_ne_nil divides text) d _

/-- Without dividers there is one piece. -/
theorem pieces_of_forall {divides : Char → Bool} {text : List Char}
    (h : ∀ c ∈ text, divides c = false) : pieces divides text = [text] := by
  induction text with
  | nil => rfl
  | cons c text ih =>
    obtain ⟨hc, htext⟩ := List.forall_mem_cons.mp h
    rw [pieces, hc, if_neg Bool.false_ne_true, ih htext]
    rfl

/-! ## Trimming -/

theorem trimEnd_append {blank : List Char} (h : ∀ c ∈ blank, isBlank c = true) (text : List Char) :
    trimEnd (text ++ blank) = trimEnd text := by
  have hblank : blank.reverse.dropWhile isBlank = [] :=
    List.dropWhile_eq_nil_iff.mpr fun c hc => h c (List.mem_reverse.mp hc)
  rw [trimEnd, trimEnd, List.reverse_append, List.dropWhile_append, hblank]
  rfl

/-- Blanks behind a text are trimmed. -/
theorem trim_append_blank {blank : List Char} (h : ∀ c ∈ blank, isBlank c = true)
    (text : List Char) : trim (text ++ blank) = trim text := by
  rw [trim, trim, List.dropWhile_append]
  split
  · rename_i hempty
    rw [List.isEmpty_iff.mp hempty, List.dropWhile_eq_nil_iff.mpr h]
  · exact trimEnd_append h _

/-- Blanks before a text are trimmed. -/
theorem trim_blank_append {blank : List Char} (h : ∀ c ∈ blank, isBlank c = true)
    (text : List Char) : trim (blank ++ text) = trim text := by
  rw [trim, trim, List.dropWhile_append, List.dropWhile_eq_nil_iff.mpr h]
  rfl

/-- What trimming leaves starts with no blank. -/
theorem head_trim {text : List Char} {c : Char} (h : (trim text).head? = some c) :
    isBlank c = false := by
  obtain ⟨blank, hsplit⟩ := List.dropWhile_suffix isBlank (l := (text.dropWhile isBlank).reverse)
  have htrim : text.dropWhile isBlank = trim text ++ blank.reverse := by
    rw [trim, trimEnd, ← List.reverse_append, hsplit, List.reverse_reverse]
  have hnot := List.head?_dropWhile_not isBlank text
  rwa [htrim, List.head?_append, h] at hnot

/-- What trimming leaves ends with no blank. -/
theorem last_trim {text : List Char} {c : Char} (h : (trim text).getLast? = some c) :
    isBlank c = false := by
  have hnot := List.head?_dropWhile_not isBlank (text.dropWhile isBlank).reverse
  rw [trim, trimEnd, List.getLast?_reverse] at h
  rwa [h] at hnot

/-! ## Lines and pieces -/

/-- Texts that are trimmed to the same, whatever stands before them. -/
def TrimAlike (text text' : List Char) : Prop :=
  ∀ before, trim (before ++ text) = trim (before ++ text')

theorem TrimAlike.cons {text text' : List Char} (h : TrimAlike text text') (c : Char) :
    TrimAlike (c :: text) (c :: text') := by
  intro before
  have hbefore := h (before ++ [c])
  rwa [List.append_assoc, List.append_assoc] at hbefore

theorem TrimAlike.refl (text : List Char) : TrimAlike text text := fun _ => rfl

/-- **Lines are the pieces between line feeds**, up to a carriage return at their ends and an
empty piece behind the last line feed. -/
theorem lines_alike_pieces (text : List Char) :
    List.Forall₂ TrimAlike (lines text) (pieces (· == '\n') text) ∨
    List.Forall₂ TrimAlike (lines text ++ [[]]) (pieces (· == '\n') text) := by
  induction text using lines.induct with
  | case1 => exact .inr (.cons (.refl _) .nil)
  | case2 cs ih =>
    rw [lines, pieces_cons_of_divides (by rfl)]
    exact ih.imp (.cons (.refl _)) (.cons (.refl _))
  | case3 cs ih =>
    have hreturn : TrimAlike [] ['\r'] := by
      intro before
      rw [List.append_nil, trim_append_blank (List.forall_mem_singleton.mpr (by decide))]
    have hpieces : pieces (· == '\n') ('\r' :: '\n' :: cs) =
        ['\r'] :: pieces (· == '\n') cs := rfl
    rw [lines, hpieces]
    exact ih.imp (.cons hreturn) (.cons hreturn)
  | case4 c cs hnl hcr ih =>
    have hc : (c == '\n') = false := by simpa using hnl
    rw [lines.eq_4 c cs hnl hcr, pieces, hc, if_neg Bool.false_ne_true]
    generalize lines cs = ls at ih ⊢
    generalize pieces (· == '\n') cs = ps at ih ⊢
    rcases ih with h | h
    · cases h with
      | nil => exact .inl (.cons (.refl _) .nil)
      | cons hfirst hrest => exact .inl (.cons (hfirst.cons c) hrest)
    -- The empty line that is missing at the end is the first one, if there are no others.
    · cases ls with
      | nil =>
        obtain ⟨p, ps, hp, hps, rfl⟩ := List.forall₂_cons_left_iff.mp h
        cases hps
        exact .inl (.cons (hp.cons c) .nil)
      | cons l ls =>
        obtain ⟨p, ps, hp, hps, rfl⟩ := List.forall₂_cons_left_iff.mp h
        exact .inr (.cons (hp.cons c) hps)

end Text

open Text

namespace Source

/-! ## Lines of code -/

/-- The line, so many lines further down. -/
def CodeLine.later (k : Nat) (line : CodeLine) : CodeLine := { line with number := line.number + k }

/-- The error, so many lines further down. -/
def Error.later (k : Nat) (error : Error) : Error := { error with line := error.line.later k }

@[simp] theorem Error.detail_later (k : Nat) (error : Error) :
    (error.later k).detail = error.detail := rfl

/-- What stands between the line feeds of a source, trimmed. -/
def texts (source : String) : List (List Char) :=
  (pieces (· == '\n') source.toList).map trim

/-- The lines of code among trimmed texts, the first of which has the number `n`. -/
def codeFrom (n : Nat) (texts : List (List Char)) : List CodeLine :=
  ((texts.zipIdx n).map fun entry => ⟨entry.2, entry.1⟩).filter fun line => isCode line.text

theorem codeFrom_append (n : Nat) (xs ys : List (List Char)) :
    codeFrom n (xs ++ ys) = codeFrom n xs ++ codeFrom (n + xs.length) ys := by
  rw [codeFrom, List.zipIdx_append, List.map_append, List.filter_append]
  rfl

theorem codeFrom_add (n k : Nat) (xs : List (List Char)) :
    codeFrom (n + k) xs = (codeFrom n xs).map (CodeLine.later k) := by
  rw [codeFrom, Nat.add_comm, ← List.map_snd_add_zipIdx_eq_zipIdx, List.map_map, List.filter_map,
    codeFrom, List.filter_map, List.map_map]
  rfl

/-- The texts of lines of code. -/
theorem text_codeFrom (n : Nat) (xs : List (List Char)) :
    (codeFrom n xs).map (·.text) = xs.filter isCode := by
  have hfilter := List.filter_map (f := Prod.fst) (p := isCode) (l := xs.zipIdx n)
  rw [List.zipIdx_map_fst] at hfilter
  rw [codeFrom, List.filter_map, List.map_map, hfilter]
  rfl

theorem codeLines_eq_lines (source : String) :
    codeLines source = codeFrom 1 ((lines source.toList).map trim) := by
  rw [codeFrom, List.zipIdx_map, ← List.map_snd_add_zipIdx_eq_zipIdx (n := 1) (k := 0)]
  simp only [codeLines, numberedLines, List.map_map]
  rfl

/-- Trimmed lines are what stands between line feeds, trimmed, but for an empty text behind
the last line feed. -/
theorem texts_eq_lines (source : String) : texts source = (lines source.toList).map trim ∨
    texts source = (lines source.toList).map trim ++ [[]] := by
  have hmap : ∀ {ls ps : List (List Char)}, List.Forall₂ TrimAlike ls ps →
      ps.map trim = ls.map trim := by
    intro ls ps h
    rw [← List.forall₂_eq_eq_eq, List.forall₂_map_left_iff, List.forall₂_map_right_iff]
    exact h.flip.imp fun _ _ halike => (halike []).symm
  rw [texts]
  rcases lines_alike_pieces source.toList with h | h
  · exact .inl (hmap h)
  · exact .inr ((hmap h).trans (List.map_append ..))

/-- **Lines of code are told by what stands between line feeds.** -/
theorem codeLines_eq (source : String) : codeLines source = codeFrom 1 (texts source) := by
  rw [codeLines_eq_lines]
  rcases texts_eq_lines source with h | h
  · rw [h]
  -- An empty text is no code.
  · rw [h, codeFrom_append]
    exact (List.append_nil _).symm

theorem texts_append (a b : String) : texts (a ++ "\n" ++ b) = texts a ++ texts b := by
  have hsplit : (a ++ "\n" ++ b).toList = a.toList ++ '\n' :: b.toList := by simp
  rw [texts, hsplit, pieces_append (by rfl), List.map_append]
  rfl

theorem length_texts (source : String) :
    (texts source).length = source.toList.count '\n' + 1 := by
  rw [texts, List.length_map, length_pieces]
  rfl

/-- **The lines of code of a source that goes on behind a line feed.** -/
theorem codeLines_append (a b : String) :
    codeLines (a ++ "\n" ++ b) =
      codeLines a ++ (codeLines b).map (CodeLine.later (1 + a.toList.count '\n')) := by
  rw [codeLines_eq, texts_append, codeFrom_append, codeFrom_add, length_texts, ← codeLines_eq,
    ← codeLines_eq, Nat.add_comm (a.toList.count '\n')]

/-! ## Lexemes -/

theorem mapError_bind {ε ε' α β : Type} (f : ε → ε') (r : Except ε α) (next : α → Except ε β) :
    (r.bind next).mapError f = (r.mapError f).bind fun a => (next a).mapError f := by
  cases r <;> rfl

theorem mapError_map {ε ε' α β : Type} (f : ε → ε') (g : α → β) (r : Except ε α) :
    (r.map g).mapError f = (r.mapError f).map g := by
  cases r <;> rfl

theorem isBlank_of_isLayout {c : Char} (h : isLayout c = true) : isBlank c = true := by
  simp only [isLayout, Bool.or_eq_true, decide_eq_true_eq] at h
  rcases h with (((rfl | rfl) | rfl) | rfl) | rfl <;> decide

theorem not_isLayout {c : Char} (h : isBlank c = false) : ¬ isLayout c = true := by
  intro hc
  rw [isBlank_of_isLayout hc] at h
  cases h

/-- A line of code starts with no blank. -/
theorem exists_cons_of_mem_codeLines {source : String} {line : CodeLine}
    (h : line ∈ codeLines source) : ∃ c cs, line.text = c :: cs ∧ isBlank c = false := by
  obtain ⟨hmem, hcode⟩ := List.mem_filter.mp h
  obtain ⟨entry, -, rfl⟩ := List.mem_map.mp hmem
  have hne : trim entry.2 ≠ [] := by
    intro hnil
    change isCode (trim entry.2) = true at hcode
    rw [hnil] at hcode
    cases hcode
  obtain ⟨c, cs, htrim⟩ := List.exists_cons_of_ne_nil hne
  exact ⟨c, cs, htrim, head_trim (by rw [htrim, List.head?_cons])⟩

/-- **A line of code has a lexeme**, if it can be scanned. -/
theorem lexemes_ne_nil {source : String} {line : CodeLine} (h : line ∈ codeLines source)
    {scanned : List Lexeme} (hscan : line.lexemes = .ok scanned) : scanned ≠ [] := by
  obtain ⟨c, cs, htext, hblank⟩ := exists_cons_of_mem_codeLines h
  have hok := scan_of_lexemes hscan
  rw [htext] at hok
  cases htake : Lexeme.take? (c :: cs) with
  | none =>
    rw [Lexeme.scan_stuck (not_isLayout hblank) htake] at hok
    cases hok
  | some taken =>
    obtain ⟨rest, -, rfl⟩ := Lexeme.scan_take_eq_ok htake hok
    exact List.cons_ne_nil _ _

theorem lexemes_append (xs ys : List CodeLine) :
    lexemes (xs ++ ys) = (lexemes xs).bind fun lss => (lexemes ys).map (lss ++ ·) := by
  induction xs with
  | nil =>
    show lexemes ys = (lexemes ys).map (([] : List (List Lexeme)) ++ ·)
    cases lexemes ys <;> rfl
  | cons line xs ih =>
    rw [List.cons_append, lexemes, lexemes, ih]
    cases line.lexemes with
    | error e => rfl
    | ok first =>
      cases lexemes xs with
      | error e => rfl
      | ok lss => cases lexemes ys <;> rfl

theorem lexemes_later (k : Nat) (ls : List CodeLine) :
    lexemes (ls.map (CodeLine.later k)) = (lexemes ls).mapError (Error.later k) := by
  induction ls with
  | nil => rfl
  | cons line ls ih =>
    have hline : (line.later k).lexemes = line.lexemes.mapError (Error.later k) := by
      show (Lexeme.scan line.text .origin).mapError _ = _
      unfold CodeLine.lexemes
      cases Lexeme.scan line.text .origin <;> rfl
    rw [List.map_cons, lexemes, lexemes, mapError_bind, hline, ih]
    simp only [mapError_map]

/-- What is wrong with a line is told by its text. -/
theorem detail_line (line : CodeLine) :
    line.lexemes.mapError Error.detail =
      (Lexeme.scan line.text .origin).mapError fun stuck => stuck.message line.text := by
  unfold CodeLine.lexemes
  cases Lexeme.scan line.text .origin <;> rfl

theorem detail_lexemes {ls ls' : List CodeLine} (h : ls.map (·.text) = ls'.map (·.text)) :
    (lexemes ls).mapError Error.detail = (lexemes ls').mapError Error.detail := by
  induction ls generalizing ls' with
  | nil =>
    rw [List.map_nil, eq_comm, List.map_eq_nil_iff] at h
    rw [h]
  | cons line ls ih =>
    rw [List.map_cons, eq_comm, List.map_eq_cons_iff] at h
    obtain ⟨line', ls', rfl, hline, hls⟩ := h
    rw [lexemes, lexemes, mapError_bind, mapError_bind, detail_line, detail_line, hline]
    simp only [mapError_map, ih hls.symm]

/-! ## Tokens -/

/-- **Tokens without idle line breaks**: none at either end, and no two in a row. -/
structure Tidy (ts : List Token) : Prop where
  head : ts.head? ≠ some .newline
  last : ts.getLast? ≠ some .newline
  apart (us vs : List Token) : ts ≠ us ++ .newline :: .newline :: vs

/-- The tokens of two texts, with a line break between them where both have some. -/
def joined (ts us : List Token) : List Token :=
  if ts = [] ∨ us = [] then ts ++ us else ts ++ .newline :: us

theorem joinLines_eq_nil_iff {lines : List (List Token)} (h : ∀ line ∈ lines, line ≠ []) :
    joinLines lines = [] ↔ lines = [] := by
  constructor
  · intro hnil
    by_contra hne
    obtain ⟨line, lines, rfl⟩ := List.exists_cons_of_ne_nil hne
    rw [joinLines_cons, List.append_eq_nil_iff] at hnil
    exact h line List.mem_cons_self hnil.1
  · rintro rfl
    rfl

theorem joinLines_append {xs ys : List (List Token)} (hxs : xs ≠ []) (hys : ys ≠ []) :
    joinLines (xs ++ ys) = joinLines xs ++ .newline :: joinLines ys := by
  obtain ⟨x, xs, rfl⟩ := List.exists_cons_of_ne_nil hxs
  obtain ⟨y, ys, rfl⟩ := List.exists_cons_of_ne_nil hys
  rw [List.cons_append, joinLines_cons, joinLines_cons, joinLines_cons, List.flatMap_append,
    List.flatMap_cons, List.append_assoc, List.cons_append]

theorem joinLines_eq_joined {xs ys : List (List Token)} (hxs : ∀ line ∈ xs, line ≠ [])
    (hys : ∀ line ∈ ys, line ≠ []) :
    joinLines (xs ++ ys) = joined (joinLines xs) (joinLines ys) := by
  by_cases hx : xs = []
  · rw [joined, if_pos (.inl ((joinLines_eq_nil_iff hxs).mpr hx)), hx]
    rfl
  · by_cases hy : ys = []
    · rw [joined, if_pos (.inr ((joinLines_eq_nil_iff hys).mpr hy)), hy, List.append_nil]
      exact (List.append_nil _).symm
    · have hboth : ¬ (joinLines xs = [] ∨ joinLines ys = []) := by
        rw [joinLines_eq_nil_iff hxs, joinLines_eq_nil_iff hys]
        exact not_or.mpr ⟨hx, hy⟩
      rw [joined, if_neg hboth, joinLines_append hx hy]

/-- A line break between tidy tokens leaves them tidy, if there are some on both sides. -/
theorem Tidy.append {ts us : List Token} (h : Tidy ts) (h' : Tidy us) (hts : ts ≠ [])
    (hus : us ≠ []) : Tidy (ts ++ .newline :: us) := by
  refine ⟨?_, ?_, fun before behind heq => ?_⟩
  · rw [List.head?_append_of_ne_nil _ hts]
    exact h.head
  · rw [List.getLast?_append_of_ne_nil _ (List.cons_ne_nil _ _), List.getLast?_cons_of_ne_nil hus]
    exact h'.last
  -- Two line breaks in a row would stand on one side, or at the end of it that is joined.
  · rcases List.append_eq_append_iff.mp heq with ⟨m, -, hm⟩ | ⟨m, hm, hm'⟩
    · rcases m with _ | ⟨t, m⟩
      · exact h'.head (by rw [(List.cons.inj hm).2, List.head?_cons])
      · exact h'.apart m behind (List.cons.inj hm).2
    · rcases m with _ | ⟨t, _ | ⟨u, m⟩⟩
      · exact h'.head (by rw [← (List.cons.inj hm').2, List.head?_cons])
      · cases (List.cons.inj hm').1
        exact h.last (by rw [hm, List.getLast?_append_of_ne_nil _ (List.cons_ne_nil _ _)]; rfl)
      · cases hm'
        exact h.apart before m hm

/-- Lines of tokens, none of which is empty or has a line break, are joined tidily. -/
theorem tidy_joinLines {lines : List (List Token)}
    (h : ∀ line ∈ lines, line ≠ [] ∧ Token.newline ∉ line) : Tidy (joinLines lines) := by
  induction lines with
  | nil => exact ⟨nofun, nofun, fun us vs => by simp [joinLines]⟩
  | cons line lines ih =>
    obtain ⟨⟨hne, hnot⟩, hlines⟩ := List.forall_mem_cons.mp h
    have hline : Tidy line := by
      refine ⟨fun hh => hnot (List.mem_of_head? hh), fun hl => hnot (List.mem_of_getLast? hl), ?_⟩
      rintro us vs rfl
      exact hnot (by simp)
    have hsingle : joinLines [line] = line := List.intercalate_singleton
    by_cases hrest : lines = []
    · rwa [hrest, hsingle]
    · have hjoined : joinLines lines ≠ [] :=
        fun hnil => hrest ((joinLines_eq_nil_iff fun l hl => (hlines l hl).1).mp hnil)
      rw [← List.singleton_append, joinLines_append (List.cons_ne_nil _ _) hrest, hsingle]
      exact hline.append (ih hlines) hne hjoined

theorem token_ne_newline (l : Lexeme) : l.token ≠ .newline := by
  unfold Lexeme.token
  split <;> exact nofun

/-- The lines of tokens of a source: none is empty, or has a line break. -/
theorem forall_mem_lines {source : String} {lss : List (List Lexeme)}
    (h : lexemes (codeLines source) = .ok lss) :
    ∀ line ∈ lss.map (·.map Lexeme.token), line ≠ [] ∧ Token.newline ∉ line := by
  intro line hline
  obtain ⟨scanned, hscanned, rfl⟩ := List.mem_map.mp hline
  obtain ⟨code, hcode, hscan⟩ := exists_of_mem_lexemes h hscanned
  refine ⟨fun hnil => lexemes_ne_nil hcode hscan (List.map_eq_nil_iff.mp hnil), fun hmem => ?_⟩
  obtain ⟨l, -, hl⟩ := List.mem_map.mp hmem
  exact token_ne_newline l hl

/-- **Tokens never have idle line breaks.** -/
theorem tidy_of_tokens {source : String} {ts : List Token} (h : tokens source = .ok ts) :
    Tidy ts := by
  obtain ⟨lss, hlss, rfl⟩ := exists_lexemes_of_tokens h
  exact tidy_joinLines (forall_mem_lines hlss)

/-- **The tokens of a source that goes on behind a line feed.** -/
theorem tokens_append (a b : String) :
    tokens (a ++ "\n" ++ b) =
      match tokens a, tokens b with
      | .error e, _ => .error e
      | .ok _, .error e => .error (e.later (1 + a.toList.count '\n'))
      | .ok ts, .ok us => .ok (joined ts us) := by
  unfold tokens
  rw [codeLines_append, lexemes_append, lexemes_later]
  cases ha : lexemes (codeLines a) with
  | error e => rfl
  | ok lss =>
    cases hb : lexemes (codeLines b) with
    | error e => rfl
    | ok lss' =>
      have hne := fun line hline => (forall_mem_lines ha line hline).1
      have hne' := fun line hline => (forall_mem_lines hb line hline).1
      show Except.ok (joinLines ((lss ++ lss').map _)) = _
      rw [List.map_append, joinLines_eq_joined hne hne']
      rfl

/-! ## Lines that carry no code -/

/-- **Lines with padding**: blanks around them, such as a carriage return behind them, and
between them lines that are blank or comments. -/
inductive Padded : List String → List String → Prop where
  | nil : Padded [] []
  /-- Blanks around a line. -/
  | line {text before behind : String} {ls ls' : List String} (htext : '\n' ∉ text.toList)
      (hbefore : ∀ c ∈ before.toList, isBlank c = true ∧ c ≠ '\n')
      (hbehind : ∀ c ∈ behind.toList, isBlank c = true ∧ c ≠ '\n') (h : Padded ls ls') :
      Padded (text :: ls) ((before ++ text ++ behind) :: ls')
  /-- A line without code. -/
  | insert {text : String} {ls ls' : List String} (htext : '\n' ∉ text.toList)
      (hcode : isCode (trim text.toList) = false) (h : Padded ls ls') :
      Padded ls (text :: ls')

/-- The texts of code among lines. -/
def codeTexts (ls : List String) : List (List Char) :=
  (ls.map fun l => trim l.toList).filter isCode

namespace Padded
variable {ls ls' : List String}

theorem codeTexts_eq (h : Padded ls ls') : codeTexts ls' = codeTexts ls := by
  unfold codeTexts
  induction h with
  | nil => rfl
  | @line text before behind _ _ _ hbefore hbehind _ ih =>
    have htrim : trim (before ++ text ++ behind).toList = trim text.toList := by
      rw [String.toList_append, String.toList_append,
        trim_append_blank fun c hc => (hbehind c hc).1,
        trim_blank_append fun c hc => (hbefore c hc).1]
    rw [List.map_cons, List.map_cons, htrim, List.filter_cons, List.filter_cons, ih]
  | insert _ hcode _ ih => rw [List.map_cons, List.filter_cons, hcode, ih]; rfl

theorem newline_notMem (h : Padded ls ls') :
    (∀ l ∈ ls, '\n' ∉ l.toList) ∧ ∀ l ∈ ls', '\n' ∉ l.toList := by
  induction h with
  | nil => exact ⟨nofun, nofun⟩
  | line htext hbefore hbehind _ ih =>
    refine ⟨List.forall_mem_cons.mpr ⟨htext, ih.1⟩, List.forall_mem_cons.mpr ⟨?_, ih.2⟩⟩
    rw [String.toList_append, String.toList_append, List.mem_append, List.mem_append]
    rintro ((hmem | hmem) | hmem)
    · exact (hbefore _ hmem).2 rfl
    · exact htext hmem
    · exact (hbehind _ hmem).2 rfl
  | insert htext _ _ ih => exact ⟨ih.1, List.forall_mem_cons.mpr ⟨htext, ih.2⟩⟩

end Padded

theorem texts_of_notMem {line : String} (h : '\n' ∉ line.toList) :
    texts line = [trim line.toList] := by
  have hpieces : pieces (· == '\n') line.toList = [line.toList] := by
    refine pieces_of_forall fun c hc => beq_false_of_ne ?_
    rintro rfl
    exact h hc
  rw [texts, hpieces, List.map_singleton]

/-- The texts of code of a source that is put together from lines. -/
theorem filter_texts_intercalate {ls : List String} (h : ∀ l ∈ ls, '\n' ∉ l.toList) :
    (texts ("\n".intercalate ls)).filter isCode = codeTexts ls := by
  induction ls with
  | nil => rfl
  | cons l ls ih =>
    obtain ⟨hl, hls⟩ := List.forall_mem_cons.mp h
    by_cases hne : ls = []
    · rw [hne, String.intercalate_singleton, texts_of_notMem hl]
      rfl
    · rw [String.intercalate_cons_of_ne_nil hne, texts_append, List.filter_append, ih hls,
        texts_of_notMem hl, codeTexts, codeTexts, ← List.filter_append]
      rfl

/-- **Tokens are told by the texts of code.** -/
theorem detail_tokens {source source' : String}
    (h : (texts source).filter isCode = (texts source').filter isCode) :
    (tokens source).mapError Error.detail = (tokens source').mapError Error.detail := by
  have hlines : (codeLines source).map (·.text) = (codeLines source').map (·.text) := by
    rw [codeLines_eq, codeLines_eq, text_codeFrom, text_codeFrom, h]
  rw [tokens, tokens, mapError_map, mapError_map, detail_lexemes hlines]

/-- **Tokens line by line.**  Where a source goes on behind a line feed, its tokens are those
of both parts, with one line break between them exactly where both have tokens; the first
part that cannot be scanned settles the error, whose line goes on counting.  The tokens of a
source have no line break at either end and no two in a row.  So lines that are blank or
comments, and blanks around lines, never change the tokens, or what is wrong. -/
theorem tokens_line_by_line :
    (∀ a b : String, tokens (a ++ "\n" ++ b) =
      match tokens a, tokens b with
      | .error e, _ => .error e
      | .ok _, .error e => .error (e.later (1 + a.toList.count '\n'))
      | .ok ts, .ok us => .ok (joined ts us)) ∧
    (∀ (source : String) (ts : List Token), tokens source = .ok ts → Tidy ts) ∧
    (∀ ls ls' : List String, Padded ls ls' →
      (tokens ("\n".intercalate ls')).mapError Error.detail =
        (tokens ("\n".intercalate ls)).mapError Error.detail) := by
  refine ⟨tokens_append, fun source ts => tidy_of_tokens, fun ls ls' h => detail_tokens ?_⟩
  obtain ⟨hls, hls'⟩ := h.newline_notMem
  rw [filter_texts_intercalate hls, filter_texts_intercalate hls', h.codeTexts_eq]

/-- Two lines, with a carriage return, a comment, an empty line and blanks. -/
theorem tokens_line_by_line_padded :
    Padded ["a", "b"] ["a\r", "  -- note", "", "\tb "] ∧
    tokens "a\nb" = .ok [.word "a", .newline, .word "b"] ∧
    Tidy [.word "a", .newline, .word "b"] ∧
    (tokens "a\r\n  -- note\n\n\tb ").mapError Error.detail =
      .ok [.word "a", .newline, .word "b"] := by
  have hblank : ∀ b, isBlank b = true ∧ b ≠ '\n' → ∀ c ∈ [b], isBlank c = true ∧ c ≠ '\n' :=
    fun b hb => List.forall_mem_singleton.mpr hb
  have hpadded : Padded ["a", "b"] ["a\r", "  -- note", "", "\tb "] :=
    @Padded.line "a" "" "\r" _ _ (by decide) (List.forall_mem_nil _) (hblank '\r' (by decide))
      (.insert (by decide) (by decide) (.insert (by decide) (by decide)
        (@Padded.line "b" "\t" " " _ _ (by decide) (hblank '\t' (by decide))
          (hblank ' ' (by decide)) .nil)))
  have htokens : tokens "a\nb" = .ok [.word "a", .newline, .word "b"] := by decide +kernel
  refine ⟨hpadded, htokens, tokens_line_by_line.2.1 _ _ htokens, ?_⟩
  have hsame := tokens_line_by_line.2.2 _ _ hpadded
  rwa [show "\n".intercalate ["a", "b"] = "a\nb" by decide, htokens] at hsame

end Source

end Fixity
