import Switching.Proofs.Pipeline
import Switching.Session

/-! Sessions over time. A command that fails changes nothing, so a run goes on as if it had not been
given. A session holds an expression and a circuit, and as long as the one comes from text and the
other is drawn from an expression, what they mean depends on nothing else: each command has a step
on the two meanings, and a run of commands takes them where the run of the steps does. -/
namespace Switching

variable {e : Expr}

/-- A value for every valuation. -/
abbrev Meaning := (String → Bool) → Bool

namespace Expr

def meaning (e : Expr) : Meaning := fun v => e.eval v

/-- An expression with the meaning that can be written as text and drawn as a circuit. -/
structure Denotes (e : Expr) (m : Meaning) : Prop where
  legible : e.Legible
  filled : e.Filled
  eval : ∀ v, e.eval v = m v

variable {m : Meaning}

theorem denotes_of_parse {text : String} (accepted : parse text = .ok e) :
    e.Denotes e.meaning :=
  ⟨legible_of_parse accepted, filled_of_parse accepted, fun _ => rfl⟩

namespace Denotes

theorem not (denotes : e.Denotes m) : (Expr.not e).Denotes fun v => !m v where
  legible := denotes.legible
  filled := filled_not.mpr denotes.filled
  eval v := by rw [eval_not, denotes.eval]

theorem rewrite (denotes : e.Denotes m) : e.rewrite.Denotes m where
  legible := by
    intro name leaf
    exact denotes.legible name (leaves_rewrite e ▸ leaf)
  filled := filled_rewrite denotes.filled
  eval v := (eval_rewrite v e).trans (denotes.eval v)

theorem simplify (denotes : e.Denotes m) : e.simplify.Denotes m where
  legible := legible_of_vars_subset denotes.legible (simplify_sound e).1
  filled := filled_simplify denotes.filled
  eval v := ((simplify_sound e).2 v).trans (denotes.eval v)

theorem foldGates (denotes : e.Denotes m) : e.foldGates.Denotes m where
  legible := by
    intro name leaf
    exact denotes.legible name (mem_leaves_foldGates.mp leaf)
  filled := filled_foldGates.mpr denotes.filled
  eval v := (eval_foldGates v e).trans (denotes.eval v)

theorem reread (denotes : e.Denotes m) (style : Style) : (e.reread style).Denotes m where
  legible := legible_of_parse (parse_print style denotes.legible)
  filled := filled_of_parse (parse_print style denotes.legible)
  eval v := (eval_reread v style e).trans (denotes.eval v)

theorem traces {α : Type} [Coordinate α] (denotes : e.Denotes m) (geometry : Geometry α) :
    (e.layout geometry).toExpr = .ok e.foldGates :=
  geometry.toExpr_draw_of_filled denotes.foldGates.filled

end Denotes

end Expr

namespace Session

variable {s : Session} {command : Command}

theorem perform_of_ok {answer : Answer} {next : Session}
    (ran : s.run command = .ok (answer, next)) : s.perform command = (.ok answer, next) := by
  rw [perform, ran]

theorem perform_of_error {fault : Fault} (failed : s.run command = .error fault) :
    s.perform command = (.error fault, s) := by
  rw [perform, failed]

/-- A command that fails leaves the session as it was. -/
theorem snd_perform_of_failed {fault : Fault} (failed : (s.perform command).1 = .error fault) :
    (s.perform command).2 = s := by
  cases ran : s.run command with
  | ok done =>
    obtain ⟨answer, next⟩ := done
    rw [perform_of_ok ran] at failed
    cases failed
  | error _ => rw [perform_of_error ran]

/-- The session after commands in order, whatever their answers. -/
def after (s : Session) (commands : List Command) : Session :=
  commands.foldl (fun s command => (s.perform command).2) s

theorem after_append (s : Session) (first rest : List Command) :
    s.after (first ++ rest) = (s.after first).after rest := List.foldl_append

/-- A run goes on as if a command that failed had not been given. -/
theorem after_of_failed {before : List Command} {fault : Fault}
    (failed : ((s.after before).perform command).1 = .error fault) (rest : List Command) :
    s.after (before ++ command :: rest) = s.after (before ++ rest) := by
  rw [after_append, after_append]
  exact congrArg (·.after rest) (snd_perform_of_failed failed)

/-! What the commands on expressions make of the session, whether or not they fail. -/

theorem snd_perform_of_transform {rule : Expr → Expr}
    (transforms : s.run command = s.transform rule) :
    (s.perform command).2 = { s with expression? := s.expression?.map rule } := by
  obtain ⟨_ | e, c⟩ := s
  · rw [perform_of_error transforms]
    rfl
  · rw [perform_of_ok transforms]
    rfl

theorem snd_perform_setText (s : Session) (text : String) :
    (s.perform (.setText text)).2 =
      { s with expression? := (Expr.parse text).toOption.or s.expression? } := by
  rw [perform, run]
  cases Expr.parse text <;> rfl

theorem snd_perform_reconstruct (s : Session) :
    (s.perform .reconstruct).2 =
      { s with expression? := s.circuit.toExpr.toOption.or s.expression? } := by
  rw [perform, run]
  cases s.circuit.toExpr <;> rfl

theorem snd_perform_layout (s : Session) :
    (s.perform .layout).2 =
      { s with circuit := s.expression?.elim s.circuit fun e => e.layout .standard } := by
  obtain ⟨_ | e, c⟩ := s <;> rfl

theorem snd_perform_reparse (s : Session) (style : Style) :
    (s.perform (.reparse style)).2 = { s with expression? :=
      (s.expression?.bind fun e => (Expr.parse (e.print style)).toOption).or s.expression? } := by
  obtain ⟨_ | e, c⟩ := s
  · rfl
  · rw [perform, run, expression, Option.bind_some]
    dsimp only [bind, Except.bind]
    cases Expr.parse (e.print style) <;> rfl

theorem perform_eval (s : Session) (a : Assignment) :
    s.perform (.eval a) = (s.expression?.elim (.error .noExpression) fun e =>
      .ok (.bool (e.eval (a.valuation false))), s) := by
  obtain ⟨_ | e, c⟩ := s <;> rfl

theorem snd_perform_column (s : Session) : (s.perform .column).2 = s := by
  obtain ⟨_ | e, c⟩ := s
  · rfl
  · rw [perform, run, expression]
    dsimp only [bind, Except.bind]
    cases TruthTable.ofExpr e <;> rfl

theorem snd_perform_info (s : Session) : (s.perform .info).2 = s := by
  obtain ⟨_ | e, c⟩ := s <;> rfl

end Session

/-- Commands that bring in no expression but from text, and no circuit but one drawn from an
expression. -/
def Command.fromText : Command → Bool
  | .setExpr _ | .addNode _ | .addEdge _ | .removeNode _ | .removeEdge _ | .relabel _ _ => false
  | _ => true

/-- The meanings of the expression and of the circuit, where there are any. -/
structure Meanings where
  expression? : Option Meaning
  circuit? : Option Meaning

namespace Meanings

/-- Only text and negation bring in a new meaning; all other commands copy or keep what there is. -/
def step (m : Meanings) : Command → Meanings
  | .setText text =>
    { m with expression? := ((Expr.parse text).toOption.map Expr.meaning).or m.expression? }
  | .negate => { m with expression? := m.expression?.map fun meaning v => !meaning v }
  | .layout => { m with circuit? := m.expression?.or m.circuit? }
  | .reconstruct => { m with expression? := m.circuit?.or m.expression? }
  | _ => m

def after (m : Meanings) (commands : List Command) : Meanings := commands.foldl step m

end Meanings

/-- Commands that keep or rework what the session holds, without a new meaning. -/
def Command.reworks : Command → Bool
  | .setText _ | .negate => false
  | command => command.fromText

theorem Command.fromText_of_reworks {command : Command} (reworks : command.reworks) :
    command.fromText := by
  cases command with
  | setExpr | addNode | addEdge | removeNode | removeEdge | relabel => cases reworks
  | _ => rfl

namespace Meanings

variable {m : Meanings} {meaning : Meaning} {command : Command} {commands : List Command}

/-- The expression has the meaning, and the circuit no other. -/
def Agree (m : Meanings) (meaning : Meaning) : Prop :=
  m = ⟨some meaning, none⟩ ∨ m = ⟨some meaning, some meaning⟩

theorem agree_step (agree : m.Agree meaning) (reworks : command.reworks) :
    (m.step command).Agree meaning := by
  cases command with
  | setText | setExpr | negate | addNode | addEdge | removeNode | removeEdge | relabel =>
    cases reworks
  | layout | reconstruct => rcases agree with rfl | rfl <;> simp [step, Agree]
  | _ => exact agree

theorem agree_after (agree : m.Agree meaning)
    (reworking : ∀ command ∈ commands, command.reworks) : (m.after commands).Agree meaning := by
  induction commands generalizing m with
  | nil => exact agree
  | cons command rest ih =>
    obtain ⟨first, later⟩ := List.forall_mem_cons.mp reworking
    exact ih (agree_step agree first) later

end Meanings

section

variable {a b : Option Expr} {p q : Option Meaning}

theorem rel_or (first : Option.Rel Expr.Denotes a p) (second : Option.Rel Expr.Denotes b q) :
    Option.Rel Expr.Denotes (a.or b) (p.or q) := by
  cases first with
  | none => exact second
  | some denotes => exact .some denotes

theorem rel_map {rule : Expr → Expr} (keeps : ∀ {e m}, e.Denotes m → (rule e).Denotes m)
    (related : Option.Rel Expr.Denotes a p) : Option.Rel Expr.Denotes (a.map rule) p := by
  cases related with
  | none => exact .none
  | some denotes => exact .some (keeps denotes)

theorem rel_negate (related : Option.Rel Expr.Denotes a p) :
    Option.Rel Expr.Denotes (a.map .not) (p.map fun meaning v => !meaning v) := by
  cases related with
  | none => exact .none
  | some denotes => exact .some denotes.not

theorem rel_parse (text : String) :
    Option.Rel Expr.Denotes (Expr.parse text).toOption
      ((Expr.parse text).toOption.map Expr.meaning) := by
  cases accepted : Expr.parse text with
  | ok e => exact .some (Expr.denotes_of_parse accepted)
  | error _ => exact .none

theorem rel_reparse (style : Style) (related : Option.Rel Expr.Denotes a p) :
    Option.Rel Expr.Denotes ((a.bind fun e => (Expr.parse (e.print style)).toOption).or a) p := by
  cases related with
  | none => exact .none
  | some denotes =>
    -- what is written by a session can be read, so the old expression is never fallen back to
    rw [Option.bind_some, Expr.parse_print style denotes.legible]
    exact .some (denotes.reread style)

theorem rel_layout {c : Circuit Float} (related : Option.Rel Expr.Denotes a p)
    (shown : Option.Rel Expr.Denotes c.toExpr.toOption q) :
    Option.Rel Expr.Denotes (a.elim c fun e => e.layout .standard).toExpr.toOption (p.or q) := by
  cases related with
  | none => exact shown
  | some denotes =>
    rw [Option.elim_some, denotes.traces]
    exact .some denotes.foldGates

theorem elim_of_rel (related : Option.Rel Expr.Denotes a p) (bound : Assignment) :
    (a.elim (.error .noExpression) fun e => .ok (.bool (e.eval (bound.valuation false)))) =
      (p.elim (.error .noExpression) fun meaning => .ok (.bool (meaning (bound.valuation false))) :
        Except Fault Answer) := by
  cases related with
  | none => rfl
  | some denotes => rw [Option.elim_some, Option.elim_some, denotes.eval]

end

namespace Session

/-- The session's expression and the expression that its circuit shows have the given meanings. -/
structure Denotes (s : Session) (m : Meanings) : Prop where
  expression : Option.Rel Expr.Denotes s.expression? m.expression?
  circuit : Option.Rel Expr.Denotes s.circuit.toExpr.toOption m.circuit?

variable {s : Session} {m : Meanings} {command : Command} {commands : List Command}

theorem denotes_start : start.Denotes ⟨none, none⟩ := ⟨.none, .none⟩

/-- A command does to a session what its step does to the meanings. -/
theorem Denotes.perform (denotes : s.Denotes m) (textual : command.fromText) :
    (s.perform command).2.Denotes (m.step command) := by
  obtain ⟨expression, circuit⟩ := denotes
  cases command with
  | setExpr | addNode | addEdge | removeNode | removeEdge | relabel => cases textual
  | setText text =>
    rw [snd_perform_setText]
    exact ⟨rel_or (rel_parse text) expression, circuit⟩
  | simplify =>
    rw [snd_perform_of_transform rfl]
    exact ⟨rel_map Expr.Denotes.simplify expression, circuit⟩
  | rewrite =>
    rw [snd_perform_of_transform rfl]
    exact ⟨rel_map Expr.Denotes.rewrite expression, circuit⟩
  | fold =>
    rw [snd_perform_of_transform rfl]
    exact ⟨rel_map Expr.Denotes.foldGates expression, circuit⟩
  | negate =>
    rw [snd_perform_of_transform rfl]
    exact ⟨rel_negate expression, circuit⟩
  | reparse style =>
    rw [snd_perform_reparse]
    exact ⟨rel_reparse style expression, circuit⟩
  | layout =>
    rw [snd_perform_layout]
    exact ⟨expression, rel_layout expression circuit⟩
  | reconstruct =>
    rw [snd_perform_reconstruct]
    exact ⟨rel_or circuit expression, circuit⟩
  | eval a =>
    rw [perform_eval]
    exact ⟨expression, circuit⟩
  | column =>
    rw [snd_perform_column]
    exact ⟨expression, circuit⟩
  | info =>
    rw [snd_perform_info]
    exact ⟨expression, circuit⟩
  | dot | graph => exact ⟨expression, circuit⟩

theorem Denotes.after (denotes : s.Denotes m)
    (textual : ∀ command ∈ commands, command.fromText) :
    (s.after commands).Denotes (m.after commands) := by
  -- the first command moves the session and the meanings, so both are general
  induction commands generalizing s m with
  | nil => exact denotes
  | cons command rest ih =>
    obtain ⟨first, later⟩ := List.forall_mem_cons.mp textual
    exact ih (denotes.perform first) later

/-- An evaluation answers with the value of the meaning. -/
theorem Denotes.fst_perform_eval (denotes : s.Denotes m) (a : Assignment) :
    (s.perform (.eval a)).1 = m.expression?.elim (.error .noExpression) fun meaning =>
      .ok (.bool (meaning (a.valuation false))) := by
  rw [perform_eval]
  exact elim_of_rel denotes.expression a

/-- As long as only commands that rework what the session holds follow a text, evaluations answer
with the values of what the text was read as. -/
theorem eval_after_setText {text : String} (accepted : Expr.parse text = .ok e)
    (reworking : ∀ command ∈ commands, command.reworks) (a : Assignment) :
    ((start.after (.setText text :: commands)).perform (.eval a)).1 =
      .ok (.bool (e.eval (a.valuation false))) := by
  have first : (start.perform (.setText text)).2.Denotes ⟨some e.meaning, none⟩ := by
    have stepped : (start.perform (.setText text)).2.Denotes
        (Meanings.step ⟨none, none⟩ (.setText text)) := denotes_start.perform rfl
    rwa [Meanings.step, accepted] at stepped
  have last := first.after fun command listed =>
    Command.fromText_of_reworks (reworking command listed)
  -- the circuit may have been drawn since or not
  obtain same | same := Meanings.agree_after (.inl rfl) reworking
  all_goals
    rw [same] at last
    exact last.fst_perform_eval a

end Session

end Switching
