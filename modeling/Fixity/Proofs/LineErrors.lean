import Mathlib.Algebra.GroupWithZero.Nat
import Fixity.Proofs.GrammarTrace
import Fixity.Proofs.Lines

/-! # Errors line by line

An error lies in the first line that is no binding, where that line alone would have it
(`Language.position_parse_eq_line`).  The run over the lines before it leaves nothing in
the record behind them, so the run over the bad line mirrors the run over this line alone
(`Grammar.agrees_line`).

What the loop over the lines then makes of the bad line can be one of three things: a
binding with something left over, a fatal failure, or the end of the loop in front of the
line.  In each of them the error is reported where the run over the line alone reports it
(`Grammar.errs_of_bad`).
-/
namespace Fixity

/-! ## Runs that end in an error -/

namespace Outcome
variable {α β : Type} {n : Nat} {o : Outcome α}

/-- The run ends in an error, which is reported behind `n` tokens. -/
def Errs (n : Nat) (o : Outcome α) : Prop :=
  o.reported = n ∧ ∀ v c, o = .ok v c → c.hasNext = true

theorem Errs.map {f : α → β} (h : o.Errs n) : (o.map f).Errs n := by
  obtain ⟨hn, hnext⟩ := h
  cases o with
  | ok v c =>
    refine ⟨hn, fun w c' hw => ?_⟩
    cases hw
    exact hnext v c rfl
  | fail f c => exact ⟨hn, nofun⟩
  | stalled => exact ⟨hn, nofun⟩

/-- What a loop makes of the outcome of its item: it goes on behind a value, and after a
recoverable failure it ends where the item was tried. -/
def loop (o : Outcome α) (rest : Parser (List α)) (start : Nat) : Outcome (List α) :=
  match o with
  | ok v c => (rest c).map (v :: ·)
  | fail f c => if f.isFatal = true then .fail f c else .ok [] (c.restore start)
  | stalled => .stalled

end Outcome

theorem Parser.exists_error_of_errs {α : Type} {p : Parser α} {c : Cursor} {n : Nat} (h : (p c).Errs n) :
    ∃ e, (Parser.toEnd p c).result = .error e ∧ e.position = n := by
  obtain ⟨hn, hnext⟩ := h
  have herr : ∃ e, (Parser.toEnd p c).result = .error e := by
    unfold Parser.toEnd
    cases hp : p c with
    | ok v c' =>
      rw [Outcome.bind_ok, if_pos (hnext v c' hp)]
      exact ⟨_, rfl⟩
    | fail f c' => exact ⟨_, rfl⟩
    | stalled => exact ⟨_, rfl⟩
  obtain ⟨e, he⟩ := herr
  exact ⟨e, he, (Parser.position_toEnd he).trans hn⟩

namespace Parser
variable {α β : Type} (p : Parser α) (delimiter : Parser β) (c : Cursor)

theorem sepBy_eq_loop (spare : Nat) : sepBy spare p delimiter c =
    (p c).loop (many spare (map Prod.snd (seq delimiter p))) c.position := by
  rw [sepBy_apply]
  unfold Outcome.loop
  cases p c <;> rfl

theorem collect_eq_loop (turns : Nat) :
    collect p (turns + 1) c = (p c).loop (collect p turns) c.position := by
  unfold Outcome.loop
  cases h : p c with
  | ok v c' => exact collect_ok h
  | fail f c' => exact collect_fail h
  | stalled => exact collect_stalled h

end Parser

theorem Cursor.At.position_advance {c : Cursor} {all rest : List Token} {t : Token}
    (h : c.At all (t :: rest)) : c.advance.position = c.position + 1 := by
  have hlen := h.length
  have hlen' := h.advance.length
  rw [List.length_cons] at hlen
  omega

/-! ## Cutting -/

namespace Token
variable {line : List Token}

/-- A line that was cut out holds no line break. -/
theorem newline_notMem_of_mem_splitOn (ts : List Token) (h : line ∈ ts.splitOn newline) :
    newline ∉ line := by
  induction ts generalizing line with
  | nil =>
    rw [List.splitOn_nil, List.mem_singleton] at h
    rw [h]
    exact List.not_mem_nil
  | cons t ts ih =>
    obtain ⟨first, others, hcut⟩ := List.exists_cons_of_ne_nil (List.splitOn_ne_nil newline ts)
    rw [List.splitOn_cons_eq_if_modifyHead] at h
    split at h
    · rcases List.mem_cons.mp h with rfl | hmem
      · exact List.not_mem_nil
      · exact ih hmem
    · rename_i hne
      rw [hcut] at ih h
      rcases List.mem_cons.mp h with rfl | hmem
      · have hfirst := ih List.mem_cons_self
        rw [List.mem_cons, not_or]
        exact ⟨fun heq => hne (beq_iff_eq.mpr heq.symm), hfirst⟩
      · exact ih (List.mem_cons_of_mem _ hmem)

/-- What can follow a line: nothing, or a line break. -/
def EndsLine (after : List Token) : Prop := ∀ t ∈ after.head?, t = newline

theorem endsLine_furtherLines (lines : List (List Token)) : EndsLine (furtherLines lines) := by
  cases lines <;> simp [EndsLine]

theorem length_furtherLines (lines : List (List Token)) :
    (furtherLines lines).length = (lines.map (·.length + 1)).sum := by
  induction lines with
  | nil => rfl
  | cons line lines ih =>
    rw [furtherLines_cons, List.length_cons, List.length_append, List.map_cons, List.sum_cons, ih]
    omega

end Token

theorem Cursor.at_start_lines {ts line : List Token} {lines : List (List Token)}
    (h : ts.splitOn .newline = line :: lines) :
    (start ts).At ts (line ++ Token.furtherLines lines) := by
  rw [← Token.eq_of_splitOn h]
  exact at_start ts

namespace Window.Pairs
variable {may : Token → Prop} {w : Window may} {α : Type} {c d : Cursor}
  {rest : Parser (List α)} {start : Nat}

/-- What the loop makes of a value behind which it does not go on. -/
theorem errs_loop {v : α} {t : Token} {expected : String} (h : w.Pairs c d)
    (hc : c.peek? = some t) (hrest : rest c = .ok [] (c.remember (c.unmet expected))) :
    ((Outcome.ok v c).loop rest start).Errs (w.offset + (Outcome.ok v d).reported) := by
  have hpos := h.position
  have hexp := h.explored
  have hunmet := c.position_unmet expected
  refine Outcome.Errs.map ?_
  rw [hrest]
  refine ⟨?_, ?_⟩
  · simp only [Outcome.reported, Cursor.explored_remember, Cursor.position_remember]
    omega
  · intro vs c' hv
    cases hv
    exact c.hasNext_iff_peek?.mpr ⟨t, hc⟩

/-- What the loop makes of a failure: after a recoverable one it ends further back, but
the record tells where the failure was. -/
theorem errs_loop_fail {f g : Failure} (h : w.Pairs c d) (hf : w.Shifts f g)
    (hrec : g.position < d.explored) (hstart : start ≤ w.offset)
    (hnext : start < w.outer.length) :
    ((Outcome.fail f c).loop rest start).Errs
      (w.offset + (Outcome.fail g d : Outcome α).reported) := by
  have hpos := hf.position
  have hexp := h.explored
  show Outcome.Errs
    (w.offset + if g.isFatal = true then g.position else max g.position (d.explored - 1))
    (if f.isFatal = true then .fail f c else .ok [] (c.restore start))
  rw [← hf.isFatal]
  split
  · rename_i hfatal
    refine ⟨?_, nofun⟩
    rw [Outcome.reported, if_pos hfatal]
    exact hpos
  · refine ⟨?_, ?_⟩
    · show max start (c.explored - 1) = _
      omega
    · intro vs c' hv
      cases hv
      exact decide_eq_true (by rwa [Cursor.tokens_restore, h.outer])

end Window.Pairs

/-- The window of one line. -/
def Window.ofLine (before line after : List Token) (h : Token.EndsLine after) :
    Window Token.InLine where
  outer := before ++ (line ++ after)
  inner := line
  offset := before.length
  size := line.length + 1
  spare := 0
  alike i hi := by
    rw [List.getElem?_append_right (Nat.le_add_right _ _), Nat.add_sub_cancel_left]
    rcases Nat.lt_or_eq_of_le (Nat.le_of_lt_succ hi) with hlt | rfl
    · exact Or.inl (List.getElem?_append_left hlt)
    · -- Behind the line there is a line break or nothing.
      rw [List.getElem?_append_right (Nat.le_refl _), Nat.sub_self, ← List.head?_eq_getElem?]
      refine Or.inr ⟨fun t ht hin => hin (h t ht), fun t ht => ?_⟩
      simp at ht
  turns := by
    simp only [List.length_append]
    omega

theorem Window.Pairs.peek?_line {before line after : List Token}
    {h : Token.EndsLine after} {c d : Cursor} {t : Token}
    (hpair : (Window.ofLine before line after h).Pairs c d) (hd : d.peek? = some t) :
    c.peek? = some t := by
  have houter : c.tokens = before ++ (line ++ after) := hpair.outer
  have hinner : d.tokens = line := hpair.inner
  have hpos : c.position = before.length + d.position := hpair.position
  rw [Cursor.peek?, hinner] at hd
  have hlt : d.position < line.length := (List.getElem?_eq_some_iff.mp hd).1
  rw [Cursor.peek?, houter, hpos, List.getElem?_append_right (Nat.le_add_right _ _),
    Nat.add_sub_cancel_left, List.getElem?_append_left hlt, hd]

namespace Grammar
variable {table : OperatorTable} {all before line after : List Token} {c : Cursor}

theorem reads_lineParser {n : Nat} : (lineParser table).Reads
    (fun ts b => Derives table (.binding b) ts) (Begins table .binding) n :=
  .label _ (reads_binding reads_expression)

theorem traced_line : (statement table (expression table) : Rule [] Binding).Traced
    Token.InLine (fun _ => True) False :=
  traced_statement trivial trivial

/-- The run over a line alone. -/
theorem trace_line (table : OperatorTable) (line : List Token) :
    Trace (.start line) True (lineParser table (.start line)) :=
  (traced_line.tracks nofun).mono (fun _ => trivial) _ rfl

theorem reported_line_le (table : OperatorTable) (line : List Token) :
    (lineParser table (.start line)).reported ≤ line.length := by
  have ht := trace_line table line
  have hw : (lineParser table (.start line)).Within (line.length + 1) :=
    reads_lineParser.within_start
  generalize lineParser table (.start line) = o at ht hw
  cases ht with
  | @ok b d =>
    obtain ⟨hpos, hexp⟩ := hw
    show max d.position (d.explored - 1) ≤ _
    omega
  | @fail f d _ _ hrec _ _ =>
    have hexp : d.explored ≤ line.length + 1 := hw
    show (if f.isFatal = true then f.position else max f.position (d.explored - 1)) ≤ _
    split <;> omega
  | stalled => exact hw.elim

/-- **The run over a line among others mirrors the run over the line alone**, if nothing
behind the start of the line has been looked at. -/
theorem agrees_line (table : OperatorTable) (hafter : Token.EndsLine after)
    (hc : c.At (before ++ (line ++ after)) (line ++ after)) (hseen : c.explored ≤ c.position) :
    (Window.ofLine before line after hafter).Agrees (lineParser table c)
      (lineParser table (.start line)) := by
  have hpos : c.position = before.length := by
    have hlen := hc.length
    simp only [List.length_append] at hlen
    omega
  have hmirrors : (Window.ofLine before line after hafter).Mirrors (lineParser table)
      (lineParser table) := traced_line.mirrors nofun
  refine hmirrors.agrees c _ ⟨hc.tokens, rfl, hpos, Nat.zero_le _, ?_⟩ reads_lineParser.within_start
  show max before.length c.explored = before.length + 0
  omega

/-- A line that is a binding is read, and nothing behind the line break after it has been
looked at. -/
theorem good_line {b : Binding} (hv : table.Valid) (hb : Derives table (.binding b) line)
    (hafter : Token.EndsLine after) (hc : c.At all (line ++ after))
    (hseen : c.explored ≤ c.position) :
    ∃ c', lineParser table c = .ok b c' ∧ c'.At all after ∧ c'.explored ≤ c'.position + 1 := by
  have hstops : Stops table.levels after := by
    intro t ht
    rw [hafter t ht]
    exact ⟨id, by simp⟩
  obtain ⟨_, c', h, hat, rfl⟩ := accepts_statement hv hb hstops all c hc
  refine ⟨c', h, hat, ?_⟩
  obtain ⟨before, rfl, -⟩ := hc.split
  have hag := agrees_line table hafter hc hseen
  have hw : (lineParser table (.start line)).Within (line.length + 1) :=
    reads_lineParser.within_start
  rw [show lineParser table c = .ok _ c' from h] at hag
  generalize lineParser table (.start line) = o at hag hw
  cases hag with
  | @ok _ _ d hpair =>
    have hexp : max before.length c'.explored = before.length + d.explored := hpair.explored
    have hle : d.explored ≤ line.length + 1 := hw.2
    have hlen := hat.length
    simp only [List.length_append] at hlen
    omega

theorem furtherParser_newline (h : c.peek? = some .newline) :
    furtherParser table c = lineParser table c.advance := by
  simp only [furtherParser, Parser.map, Parser.seq, Rule.newline, Rule.eval, Parser.token, h,
    Option.bind_some, if_true, Outcome.bind_ok]
  cases lineParser table c.advance <;> rfl

/-- In front of anything but a line break, the loop over the lines ends. -/
theorem collect_furtherParser {t : Token} (ht : c.peek? = some t) (hne : t ≠ .newline)
    (turns : Nat) : Parser.collect (furtherParser table) (turns + 1) c =
      .ok [] (c.remember (c.unmet "newline")) := by
  have h : furtherParser table c =
      .fail (c.unmet "newline") (c.remember (c.unmet "newline")) := by
    simp [furtherParser, Parser.map, Parser.seq, Rule.newline, Rule.eval, Parser.token, ht, hne,
      Parser.reject]
  rw [Parser.collect_fail h, if_neg (by simp [Cursor.isFatal_unmet])]
  rfl

/-- What a run over a line alone leaves unread, if the line is no binding. -/
theorem peek?_of_bad {b : Binding} {d : Cursor} (hbad : ∀ b, ¬ Derives table (.binding b) line)
    (h : lineParser table (.start line) = .ok b d) : ∃ t ∈ line, d.peek? = some t := by
  have hread : Reading line line _ _ _ _ (lineParser table (.start line)) :=
    reads_lineParser line line _ (Cursor.at_start line) (Nat.lt_succ_self _)
  rw [h] at hread
  cases hread with
  | @ok _ _ us r hline hat hdone _ =>
    cases r with
    | nil =>
      rw [List.append_nil] at hline
      exact absurd (hline ▸ hdone) (hbad b)
    | cons t r =>
      refine ⟨t, ?_, hat.peek?⟩
      rw [hline]
      simp

/-- **What the loop makes of a line that is no binding**: an error where the run over the
line alone reports it. -/
theorem errs_of_bad {rest : Parser (List Binding)} {start : Nat}
    (hbad : ∀ b, ¬ Derives table (.binding b) line) (hline : .newline ∉ line)
    (hafter : Token.EndsLine after) (hc : c.At all (line ++ after))
    (hseen : c.explored ≤ c.position) (hstart : start ≤ c.position) (hnext : start < all.length)
    (hrest : ∀ c' t, c'.peek? = some t → t ≠ .newline →
      rest c' = .ok [] (c'.remember (c'.unmet "newline"))) :
    ((lineParser table c).loop rest start).Errs
      (c.position + (lineParser table (.start line)).reported) := by
  obtain ⟨before, rfl, hpos⟩ := hc.split
  have hag := agrees_line table hafter hc hseen
  have ht := trace_line table line
  have hpeek : ∀ b d, lineParser table (.start line) = .ok b d →
      ∃ t ∈ line, d.peek? = some t := fun b d => peek?_of_bad hbad
  generalize lineParser table (.start line) = o at hag ht hpeek
  generalize lineParser table c = o' at hag
  rw [hpos] at hstart ⊢
  cases hag with
  | @ok b c' d hpair =>
    -- A binding, but the line goes on.
    obtain ⟨t, hmem, hd⟩ := hpeek b d rfl
    have hne : t ≠ .newline := fun heq => hline (heq ▸ hmem)
    have hc' := hpair.peek?_line hd
    exact hpair.errs_loop hc' (hrest c' t hc' hne)
  | @fail f g c' d hf hpair =>
    cases ht with
    | fail _ _ hrec _ _ => exact hpair.errs_loop_fail hf hrec hstart hnext

/-- One turn of the loop, in front of a line break. -/
theorem collect_newline {rest : List Token} (h : c.At all (.newline :: rest)) (turns : Nat) :
    Parser.collect (furtherParser table) (turns + 1) c =
      (lineParser table c.advance).loop (Parser.collect (furtherParser table) turns) c.position := by
  rw [Parser.collect_eq_loop, furtherParser_newline h.peek?]

/-- The loop over further lines, where the first that is no binding is `line`. -/
theorem errs_collect {before after : List (List Token)} {turns : Nat} (hv : table.Valid)
    (hgood : ∀ l ∈ before, ∃ b, Derives table (.binding b) l)
    (hbad : ∀ b, ¬ Derives table (.binding b) line) (hline : .newline ∉ line)
    (hc : c.At all (Token.furtherLines (before ++ line :: after)))
    (hseen : c.explored ≤ c.position + 1) (hturns : c.remaining < turns) :
    (Parser.collect (furtherParser table) turns c).Errs
      (c.position + (Token.furtherLines before).length + 1 +
        (lineParser table (.start line)).reported) := by
  induction before generalizing c turns with
  | nil =>
    have hc : c.At all (.newline :: (line ++ Token.furtherLines after)) := hc
    have hlen := hc.length
    have hpos := hc.position_advance
    rw [hc.remaining, List.length_cons] at hturns
    rw [List.length_cons] at hlen
    obtain ⟨turns, rfl⟩ : ∃ k, turns = k + 2 := ⟨turns - 2, by omega⟩
    rw [collect_newline hc, Token.furtherLines_nil, List.length_nil, Nat.add_zero, ← hpos]
    refine errs_of_bad hbad hline (Token.endsLine_furtherLines after) hc.advance ?_ (by omega)
      (by omega) fun c' t ht hne => collect_furtherParser ht hne turns
    rw [Cursor.explored_advance]
    omega
  | cons l before ih =>
    obtain ⟨⟨b, hb⟩, hgood⟩ := List.forall_mem_cons.mp hgood
    have hc : c.At all (.newline :: (l ++ Token.furtherLines (before ++ line :: after))) := hc
    have hpos := hc.position_advance
    obtain ⟨c', hl, hat, hseen'⟩ := good_line hv hb (Token.endsLine_furtherLines _) hc.advance (by
      rw [Cursor.explored_advance]
      omega)
    have hlen := hc.advance.length
    have hlen' := hat.length
    rw [List.length_append] at hlen
    rw [hc.remaining, List.length_cons, List.length_append] at hturns
    obtain ⟨turns, rfl⟩ : ∃ k, turns = k + 1 := ⟨turns - 1, by omega⟩
    have hsame : c.position + (Token.furtherLines (l :: before)).length =
        c'.position + (Token.furtherLines before).length := by
      rw [Token.furtherLines_cons, List.length_cons, List.length_append]
      omega
    rw [collect_newline hc, hl, hsame]
    exact (ih hgood hat hseen' (by rw [hat.remaining]; omega)).map

theorem linesParser_eq_loop (c : Cursor) : linesParser table c =
    (lineParser table c).loop (Parser.many 0 (furtherParser table)) c.position :=
  Parser.sepBy_eq_loop _ _ _ 0

/-- **The loop over all lines**, where the first that is no binding is `line`. -/
theorem errs_lines {ts : List Token} {before after : List (List Token)} (hv : table.Valid)
    (hne : ts ≠ []) (hts : ts.splitOn .newline = before ++ line :: after)
    (hgood : ∀ l ∈ before, ∃ b, Derives table (.binding b) l)
    (hbad : ∀ b, ¬ Derives table (.binding b) line) :
    (linesParser table (.start ts)).Errs
      ((Token.furtherLines before).length + (lineParser table (.start line)).reported) := by
  have hline : .newline ∉ line :=
    Token.newline_notMem_of_mem_splitOn ts (by simp [hts])
  rw [linesParser_eq_loop]
  cases before with
  | nil =>
    rw [Token.furtherLines_nil, List.length_nil]
    exact errs_of_bad hbad hline (Token.endsLine_furtherLines after) (Cursor.at_start_lines hts)
      (Nat.le_refl _) (Nat.le_refl _) (List.length_pos_iff.mpr hne)
      fun c' t ht hne => collect_furtherParser ht hne _
  | cons l before =>
    obtain ⟨⟨b, hb⟩, hgood⟩ := List.forall_mem_cons.mp hgood
    have hc : (Cursor.start ts).At ts (l ++ Token.furtherLines (before ++ line :: after)) :=
      Cursor.at_start_lines hts
    obtain ⟨c', hl, hat, hseen⟩ := good_line hv hb (Token.endsLine_furtherLines _) hc (Nat.le_refl _)
    have hpos : c'.position = l.length := by
      have hlen := hc.length
      have hlen' := hat.length
      have hzero : (Cursor.start ts).position = 0 := rfl
      rw [List.length_append] at hlen
      omega
    have hsame : (Token.furtherLines (l :: before)).length =
        c'.position + (Token.furtherLines before).length + 1 := by
      rw [Token.furtherLines_cons, List.length_cons, List.length_append, hpos]
    rw [hl, hsame]
    exact (errs_collect hv hgood hbad hline hat hseen (Nat.lt_succ_self _)).map

end Grammar

namespace Language
variable (L : Language)

theorem exists_error_of_errs {ts : List Token} {n : Nat}
    (h : (Grammar.linesParser L.table (.start ts)).Errs n) :
    ∃ e, L.parse ts = .error e ∧ e.position = n := by
  obtain ⟨e, he, hpos⟩ := Parser.exists_error_of_errs h
  refine ⟨e, ?_, hpos⟩
  rw [L.parse_eq_lines, he]
  rfl

/-- **An error lies in the first line that is no binding**, where that line alone would
have it. -/
theorem position_parse_eq_line (ts : List Token) (before after : List (List Token))
    (line : List Token) (hne : ts ≠ []) (hts : ts.splitOn .newline = before ++ line :: after)
    (hgood : ∀ l ∈ before, ∃ b, L.parse l = .ok ⟨[b]⟩)
    (hbad : ¬ ∃ b, L.parse line = .ok ⟨[b]⟩) :
    ∃ e, L.parse ts = .error e ∧
      (line = [] ∧ e.position = (before.map (·.length + 1)).sum ∨
        ∃ e', L.parse line = .error e' ∧
          e.position = (before.map (·.length + 1)).sum + e'.position) := by
  have hgood' : ∀ l ∈ before, ∃ b, Grammar.Derives L.table (.binding b) l := fun l hl =>
    (hgood l hl).imp fun b => (L.parse_singleton_iff l b).mp
  have hbad' : ∀ b, ¬ Grammar.Derives L.table (.binding b) line := fun b hb =>
    hbad ⟨b, (L.parse_singleton_iff line b).mpr hb⟩
  obtain ⟨e, he, hpos⟩ := L.exists_error_of_errs (Grammar.errs_lines L.valid hne hts hgood' hbad')
  refine ⟨e, he, ?_⟩
  rw [hpos, Token.length_furtherLines]
  by_cases hempty : line = []
  · refine Or.inl ⟨hempty, ?_⟩
    have hle := Grammar.reported_line_le L.table line
    rw [hempty, List.length_nil] at hle
    rw [hempty, Nat.le_zero.mp hle, Nat.add_zero]
  · -- The line alone is cut into itself.
    have hline : line.splitOn .newline = [] ++ line :: [] := by
      refine List.splitOn_eq_singleton (Token.newline_notMem_of_mem_splitOn ts ?_)
      simp [hts]
    obtain ⟨e', he', hpos'⟩ := L.exists_error_of_errs
      (Grammar.errs_lines L.valid hempty hline (by simp) hbad')
    refine Or.inr ⟨e', he', ?_⟩
    rw [hpos', Token.furtherLines_nil, List.length_nil, Nat.zero_add]

/-- The second of three lines has no value, and the third is no binding either. -/
theorem position_parse_eq_line_standard :
    ∃ e, standard.parse [.word "let", .word "x", .symbol "=", .word "a", .newline,
        .word "let", .word "y", .newline, .word "z"] = .error e ∧
      ∃ e', standard.parse [.word "let", .word "y"] = .error e' ∧ e.position = 5 + e'.position := by
  have hgood : standard.parse [.word "let", .word "x", .symbol "=", .word "a"] =
      .ok ⟨[⟨.word "x", .name (.word "a")⟩]⟩ := by decide +kernel
  have hbad : standard.parse [.word "let", .word "y"] =
      .error (.unexpected 2 ["'='"] "end of input") := by decide +kernel
  obtain ⟨e, he, ⟨hnil, -⟩ | hpos⟩ := position_parse_eq_line standard
    [.word "let", .word "x", .symbol "=", .word "a", .newline, .word "let", .word "y", .newline,
      .word "z"]
    [[.word "let", .word "x", .symbol "=", .word "a"]] [[.word "z"]] [.word "let", .word "y"]
    (List.cons_ne_nil _ _) (by decide) (by simpa using ⟨_, hgood⟩) (by simp [hbad])
  · cases hnil
  · exact ⟨e, he, hpos⟩

end Language

end Fixity
