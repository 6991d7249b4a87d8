import Fixity.Rule
import Fixity.Proofs.Handling

/-! # Watching a run

A run of a rule runs other rules in turn: its parts, the rules in scope, itself.  Here a
run is watched: each time a rule is entered or left, however deep inside, that moment is
noted, in the order of time (`Rule.watch`).  A rule is left with a value, with a failure,
or not at all; the note says which, and where the cursor stands then (`Ending`).

Watching changes nothing: what comes out of a watched run is what comes out of the run
(`Rule.outcome_watch`).
-/
namespace Fixity

/-- How a run ended, whatever its value is. -/
inductive Ending where
  /-- With a value. -/
  | ok (cursor : Cursor)
  /-- With a failure. -/
  | fail (failure : Failure) (cursor : Cursor)
  /-- The run goes round without moving on. -/
  | stalled
  deriving DecidableEq, Repr

/-- How an outcome was reached. -/
def Outcome.ending {α : Type} : Outcome α → Ending
  | ok _ c => .ok c
  | fail f c => .fail f c
  | stalled => .stalled

/-- **A moment of a run.** -/
inductive Moment where
  /-- A rule is entered. -/
  | entered (cursor : Cursor)
  /-- A rule is left. -/
  | left (ending : Ending)
  deriving DecidableEq, Repr

/-- **A run that was watched.** -/
structure Watched (α : Type) where
  /-- What came out of it. -/
  outcome : Outcome α
  /-- The moments in which rules were entered and left, in the order of time. -/
  moments : List Moment
  deriving DecidableEq, Repr

namespace Watched
variable {α β : Type}

/-- A run in which no rule is entered. -/
def still (o : Outcome α) : Watched α := ⟨o, []⟩

/-- A run, and behind it another one that depends on how it came out. -/
def after (w : Watched α) (next : Outcome α → Watched β) : Watched β :=
  ⟨(next w.outcome).outcome, w.moments ++ (next w.outcome).moments⟩

/-- Goes on after a value, and after a recoverable failure. -/
def handle (w : Watched α) (next : α → Cursor → Watched β)
    (rescue : Failure → Cursor → Watched β) : Watched β :=
  w.after fun
    | .ok v c => next v c
    | .fail f c => if f.isFatal = true then still (.fail f c) else rescue f c
    | .stalled => still .stalled

/-- Goes on after a value. -/
def bind (w : Watched α) (next : α → Cursor → Watched β) : Watched β :=
  w.handle next fun f c => still (.fail f c)

/-- Goes on after a recoverable failure. -/
def recover (w : Watched α) (next : Failure → Cursor → Watched α) : Watched α :=
  w.handle (fun v c => still (.ok v c)) next

/-- Changes the value. -/
def map (f : α → β) (w : Watched α) : Watched β := w.bind fun v c => still (.ok (f v) c)

/-- The run of a rule: it is entered, and it is left. -/
def enclose (c : Cursor) (w : Watched α) : Watched α :=
  ⟨w.outcome, .entered c :: (w.moments ++ [.left w.outcome.ending])⟩

@[simp] theorem outcome_still (o : Outcome α) : (still o).outcome = o := rfl

@[simp] theorem outcome_enclose (c : Cursor) (w : Watched α) : (w.enclose c).outcome = w.outcome :=
  rfl

@[simp] theorem outcome_handle (w : Watched α) (next : α → Cursor → Watched β)
    (rescue : Failure → Cursor → Watched β) :
    (w.handle next rescue).outcome =
      w.outcome.handle (fun v c => (next v c).outcome) fun f c => (rescue f c).outcome := by
  simp only [handle, after]
  cases w.outcome with
  | ok v c => rfl
  | fail f c =>
    simp only [Outcome.handle]
    split <;> rfl
  | stalled => rfl

@[simp] theorem outcome_bind (w : Watched α) (next : α → Cursor → Watched β) :
    (w.bind next).outcome = w.outcome.bind fun v c => (next v c).outcome := by
  rw [bind, outcome_handle, Outcome.bind_eq_handle]
  rfl

@[simp] theorem outcome_recover (w : Watched α) (next : Failure → Cursor → Watched α) :
    (w.recover next).outcome = w.outcome.recover fun f c => (next f c).outcome := by
  rw [recover, outcome_handle, Outcome.recover_eq_handle]
  rfl

@[simp] theorem outcome_map (f : α → β) (w : Watched α) :
    (w.map f).outcome = w.outcome.map f := by
  rw [map, outcome_bind]
  rfl

end Watched

/-- **A parser whose runs are watched.** -/
abbrev Watcher (α : Type) := Cursor → Watched α

namespace Watcher
variable {α β : Type}

/-- The parser that is watched. -/
def parser (p : Watcher α) : Parser α := fun c => (p c).outcome

/-- Notes when the parser is entered and left. -/
def noted (p : Watcher α) : Watcher α := fun c => (p c).enclose c

/-- A parser that runs no other. -/
def alone (p : Parser α) : Watcher α := fun c => .still (p c)

/-! ## What parsers do, watched -/

def seq (first : Watcher α) (second : Watcher β) : Watcher (α × β) := fun c =>
  (first c).bind fun a c => (second c).map fun b => (a, b)

def map (f : α → β) (p : Watcher α) : Watcher β := fun c => (p c).map f

def or (first second : Watcher α) : Watcher α := fun c =>
  (first c).recover fun f c₁ =>
    (second (c₁.restore c.position)).recover fun g c₂ =>
      .still (.fail (f.merge g) (c₂.restore c.position))

def filter (accepts : α → Bool) (expected : String) (p : Watcher α) : Watcher α := fun c =>
  (p c).bind fun v c' =>
    .still (if accepts v then .ok v c' else Parser.reject expected (c'.restore c.position))

def label (name : String) (p : Watcher α) : Watcher α := fun c =>
  (p c).recover fun f c' =>
    .still (if f.position = c.position then
      .fail { f with expected := [name] } (c'.remember { f with expected := [name] })
    else .fail f c')

def tryEach (start : Nat) : List (Watcher α) → Option Failure → Watcher α
  | [], failure => alone (Parser.tryEach start [] failure)
  | p :: ps, failure => fun c =>
    (p c).recover fun f c' =>
      tryEach start ps (some (match failure with
        | some failure => failure.merge f
        | none => f)) (c'.restore start)

def firstOf (ps : List (Watcher α)) : Watcher α := fun c => tryEach c.position ps none c

def sequence : List (Watcher α) → Watcher (List α)
  | [] => alone (Parser.sequence [])
  | p :: ps => fun c => (p c).bind fun v c => (sequence ps c).map (v :: ·)

def optional (p : Watcher α) : Watcher (Option α) := fun c =>
  ((p c).map some).recover fun _ c' => .still (.ok none (c'.restore c.position))

def commit (p : Watcher α) : Watcher α := fun c =>
  (p c).recover fun f c' => .still (.fail f.toFatal (c'.rememberFatal f))

def toEnd (p : Watcher α) : Watcher α := fun c =>
  (p c).bind fun v c =>
    .still (if c.hasNext then .fail (c.unmet "end of input").asTrailing c else .ok v c)

def orGroup (operand group : Watcher α) : Watcher α := fun c =>
  (operand c).recover fun f c₁ =>
    if f.position = c.position then
      (group (c₁.restore c.position)).recover fun g c₂ =>
        .still (.fail (f.merge g) (c₂.restore c.position))
    else .still (.fail f c₁)

def collect (p : Watcher α) : Nat → Watcher (List α)
  | 0 => alone fun _ => .stalled
  | turns + 1 => fun c =>
    (p c).handle (fun v c' => (collect p turns c').map (v :: ·)) fun _ c' =>
      .still (.ok [] (c'.restore c.position))

def many (spare : Nat) (p : Watcher α) : Watcher (List α) := fun c => collect p (c.turns spare) c

def many1 (spare : Nat) (p : Watcher α) : Watcher (α × List α) := fun c =>
  (p c).bind fun v c => (many spare p c).map fun vs => (v, vs)

def sepBy (spare : Nat) (item : Watcher α) (delimiter : Watcher β) : Watcher (List α) := fun c =>
  (item c).handle (fun v c' => (many spare (map Prod.snd (seq delimiter item)) c').map (v :: ·))
    fun _ c' => .still (.ok [] (c'.restore c.position))

def joinTails (tail : Watcher (Tail α)) : Nat → Tree α → Watcher (Tree α)
  | 0, _ => alone fun _ => .stalled
  | turns + 1, tree => fun c =>
    (tail c).handle
      (fun
        | .more op right, c' => joinTails tail turns (.node op tree right) c'
        | .last op right, c' => .still (.ok (.node op tree right) c'))
      fun _ c' => .still (.ok tree (c'.restore c.position))

def chain (spare : Nat) (operand : Watcher (Tree α)) (tail : Watcher (Tail α)) :
    Watcher (Tree α) := fun c =>
  (operand c).bind fun tree c => joinTails tail (c.turns spare) tree c

def iterate (body : Watcher α → Watcher α) : Nat → Watcher α
  | 0 => alone fun _ => .stalled
  | turns + 1 => body (iterate body turns)

def fix (spare : Nat) (body : Watcher α → Watcher α) : Watcher α := fun c =>
  iterate body (c.turns spare) c

/-! ## Watching changes nothing -/

@[simp] theorem parser_noted (p : Watcher α) : p.noted.parser = p.parser := rfl

@[simp] theorem parser_alone (p : Parser α) : (alone p).parser = p := rfl

@[simp] theorem parser_seq (p : Watcher α) (q : Watcher β) :
    (seq p q).parser = Parser.seq p.parser q.parser := by
  funext c
  simp [parser, seq, Parser.seq]

@[simp] theorem parser_map (f : α → β) (p : Watcher α) :
    (map f p).parser = Parser.map f p.parser := by
  funext c
  simp [parser, map, Parser.map]

@[simp] theorem parser_or (p q : Watcher α) : (or p q).parser = Parser.or p.parser q.parser := by
  funext c
  simp [parser, or, Parser.or]

@[simp] theorem parser_filter (accepts : α → Bool) (expected : String) (p : Watcher α) :
    (filter accepts expected p).parser = Parser.filter accepts expected p.parser := by
  funext c
  simp [parser, filter, Parser.filter]

@[simp] theorem parser_label (name : String) (p : Watcher α) :
    (label name p).parser = Parser.label name p.parser := by
  funext c
  simp [parser, label, Parser.label]

theorem parser_tryEach (start : Nat) (ps : List (Watcher α)) (failure : Option Failure) :
    (tryEach start ps failure).parser = Parser.tryEach start (ps.map parser) failure := by
  induction ps generalizing failure with
  | nil => rfl
  | cons p ps ih =>
    funext c
    simp only [parser, tryEach, Watched.outcome_recover, List.map_cons, Parser.tryEach]
    congr 1
    funext f c'
    exact congrFun (ih _) _

@[simp] theorem parser_firstOf (ps : List (Watcher α)) :
    (firstOf ps).parser = Parser.firstOf (ps.map parser) := by
  funext c
  exact congrFun (parser_tryEach c.position ps none) c

@[simp] theorem parser_sequence (ps : List (Watcher α)) :
    (sequence ps).parser = Parser.sequence (ps.map parser) := by
  induction ps with
  | nil => rfl
  | cons p ps ih =>
    funext c
    simp only [parser, sequence, Watched.outcome_bind, Watched.outcome_map, List.map_cons,
      Parser.sequence, ← ih]

@[simp] theorem parser_optional (p : Watcher α) :
    (optional p).parser = Parser.optional p.parser := by
  funext c
  simp [parser, optional, Parser.optional]

@[simp] theorem parser_commit (p : Watcher α) : (commit p).parser = Parser.commit p.parser := by
  funext c
  simp [parser, commit, Parser.commit]

@[simp] theorem parser_toEnd (p : Watcher α) : (toEnd p).parser = Parser.toEnd p.parser := by
  funext c
  simp [parser, toEnd, Parser.toEnd]

@[simp] theorem parser_orGroup (p q : Watcher α) :
    (orGroup p q).parser = Parser.orGroup p.parser q.parser := by
  funext c
  simp only [parser, orGroup, Parser.orGroup, Watched.outcome_recover]
  congr 1
  funext f c₁
  split
  · rw [Watched.outcome_recover]
    rfl
  · rfl

@[simp] theorem parser_collect (p : Watcher α) (turns : Nat) :
    (collect p turns).parser = Parser.collect p.parser turns := by
  induction turns with
  | zero => rfl
  | succ turns ih =>
    funext c
    rw [Parser.collect_succ, ← ih]
    simp [parser, collect]

@[simp] theorem parser_many (spare : Nat) (p : Watcher α) :
    (many spare p).parser = Parser.many spare p.parser := by
  funext c
  exact congrFun (parser_collect p _) c

@[simp] theorem parser_many1 (spare : Nat) (p : Watcher α) :
    (many1 spare p).parser = Parser.many1 spare p.parser := by
  funext c
  simp only [Parser.many1_eq_seq, Parser.seq, ← parser_many]
  simp [parser, many1]

@[simp] theorem parser_sepBy (spare : Nat) (item : Watcher α) (delimiter : Watcher β) :
    (sepBy spare item delimiter).parser =
      Parser.sepBy spare item.parser delimiter.parser := by
  funext c
  rw [Parser.sepBy_eq, ← parser_seq, ← parser_map, ← parser_many]
  simp [parser, sepBy]

@[simp] theorem parser_joinTails (tail : Watcher (Tail α)) (turns : Nat) (tree : Tree α) :
    (joinTails tail turns tree).parser = Parser.joinTails tail.parser turns tree := by
  induction turns generalizing tree with
  | zero => rfl
  | succ turns ih =>
    funext c
    rw [Parser.joinTails_succ]
    simp only [parser, joinTails, Watched.outcome_handle]
    congr 1
    funext t c'
    cases t with
    | more op right => exact congrFun (ih _) c'
    | last op right => rfl

@[simp] theorem parser_chain (spare : Nat) (operand : Watcher (Tree α)) (tail : Watcher (Tail α)) :
    (chain spare operand tail).parser = Parser.chain spare operand.parser tail.parser := by
  funext c
  simp only [Parser.chain, ← parser_joinTails]
  simp [parser, chain]

theorem parser_fix {spare : Nat} {body : Watcher α → Watcher α} {body' : Parser α → Parser α}
    (h : ∀ p : Watcher α, (body p).parser = body' p.parser) :
    (fix spare body).parser = Parser.fix spare body' := by
  have key : ∀ turns, (iterate body turns).parser = Parser.iterate body' turns := by
    intro turns
    induction turns with
    | zero => rfl
    | succ turns ih => rw [iterate, h, ih, Parser.iterate]
  funext c
  exact congrFun (key _) c

end Watcher

/-- Watched parsers for the rules in scope. -/
def Watchers (Γ : List Type) := ∀ β : Type, Var Γ β → Watcher β

namespace Watchers
variable {Γ : List Type} {α : Type}

/-- No rule is in scope. -/
def nil : Watchers [] := fun _ x => nomatch x

/-- One more rule is in scope. -/
def cons (p : Watcher α) (ps : Watchers Γ) : Watchers (α :: Γ)
  | _, .here => p
  | _, .there x => ps _ x

end Watchers

namespace Rule

/-- **The watched parser that a rule describes.** -/
def watch (spare : Nat) {Γ : List Type} {α : Type} : Rule Γ α → Watchers Γ → Watcher α
  | token decode expected, _ => .noted (.alone (.token decode expected))
  | atEnd, _ => .noted (.alone .atEnd)
  | dangling, _ => .noted (.alone .dangling)
  | seq first second, ws => .noted (.seq (first.watch spare ws) (second.watch spare ws))
  | map f rule, ws => .noted (.map f (rule.watch spare ws))
  | or first second, ws => .noted (.or (first.watch spare ws) (second.watch spare ws))
  | filter accepts expected rule, ws => .noted (.filter accepts expected (rule.watch spare ws))
  | label name rule, ws => .noted (.label name (rule.watch spare ws))
  | firstOf rules, ws => .noted (.firstOf (List.ofFn fun i => (rules i).watch spare ws))
  | sequence rules, ws => .noted (.sequence (List.ofFn fun i => (rules i).watch spare ws))
  | many rule, ws => .noted (.many spare (rule.watch spare ws))
  | many1 rule, ws => .noted (.many1 spare (rule.watch spare ws))
  | sepBy item delimiter, ws =>
    .noted (.sepBy spare (item.watch spare ws) (delimiter.watch spare ws))
  | optional rule, ws => .noted (.optional (rule.watch spare ws))
  | commit rule, ws => .noted (.commit (rule.watch spare ws))
  | toEnd rule, ws => .noted (.toEnd (rule.watch spare ws))
  | orGroup operand group, ws => .noted (.orGroup (operand.watch spare ws) (group.watch spare ws))
  | chain _ operand tail, ws =>
    .noted (.chain spare (operand.watch spare ws) (tail.watch spare ws))
  | fix body, ws => .noted (.fix spare fun self => body.watch spare (.cons self ws))
  | share shared body, ws => .noted (body.watch spare (.cons (shared.watch spare ws) ws))
  | ref x, ws => .noted (ws _ x)

theorem parser_watch {Γ : List Type} {α : Type} (spare : Nat) (rule : Rule Γ α)
    {ws : Watchers Γ} {env : Env Γ} (h : ∀ β (x : Var Γ β), (ws β x).parser = env.get x) :
    (rule.watch spare ws).parser = rule.eval spare env := by
  induction rule with
  | token => rfl
  | atEnd => rfl
  | dangling => rfl
  | seq first second ih ih' => simp [watch, eval, ih h, ih' h]
  | map f rule ih => simp [watch, eval, ih h]
  | or first second ih ih' => simp [watch, eval, ih h, ih' h]
  | filter accepts expected rule ih => simp [watch, eval, ih h]
  | label name rule ih => simp [watch, eval, ih h]
  | firstOf rules ih => simp [watch, eval, List.map_ofFn, Function.comp_def, fun i => ih i h]
  | sequence rules ih => simp [watch, eval, List.map_ofFn, Function.comp_def, fun i => ih i h]
  | many rule ih => simp [watch, eval, ih h]
  | many1 rule ih => simp [watch, eval, ih h]
  | sepBy item delimiter ih ih' => simp [watch, eval, ih h, ih' h]
  | optional rule ih => simp [watch, eval, ih h]
  | commit rule ih => simp [watch, eval, ih h]
  | toEnd rule ih => simp [watch, eval, ih h]
  | orGroup operand group ih ih' => simp [watch, eval, ih h, ih' h]
  | chain level operand tail ih ih' => simp [watch, eval, ih h, ih' h]
  | fix body ih =>
    refine Watcher.parser_fix fun self => ih fun β x => ?_
    cases x with
    | here => rfl
    | there x => exact h β x
  | share shared body ih ih' =>
    refine ih' fun β x => ?_
    cases x with
    | here => exact ih h
    | there x => exact h β x
  | ref x => exact h _ x

/-- **Watching changes nothing.** -/
theorem outcome_watch {α : Type} (spare : Nat) (rule : Rule [] α) (c : Cursor) :
    (rule.watch spare .nil c).outcome = rule.eval spare .nil c :=
  congrFun (parser_watch spare rule nofun) c

end Rule

end Fixity
