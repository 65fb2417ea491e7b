import Switching.Expr.Parser
import Switching.Proofs.Expr.Vacancy
import Switching.Proofs.Text.Legible

/-! What one token can do to the stacks, said once. Invariants of whole runs
are proved from these cases and never open the parser. -/
namespace Switching.Parser

/-- An operator takes its operands from the top of the stack. -/
inductive Combines (op : Operator) : List Expr → List Expr → Prop
  | inverter {e rest} : op.component = .inverter → Combines op (e :: rest) (.not e :: rest)
  | gate {g left right rest} : op.component = .gate g →
      Combines op (right :: left :: rest) (.gate g [left, right] :: rest)

/-- Waiting operators of at least a precedence are applied until none is on top. -/
inductive Applies (precedence : Nat) : Stacks → Stacks → Prop
  | stop {s} : (∀ op pending, s.pending = .operator op :: pending → op.precedence < precedence) →
      Applies precedence s s
  | operator {op pending operands combined s} : precedence ≤ op.precedence →
      Combines op operands combined → Applies precedence ⟨pending, combined⟩ s →
      Applies precedence ⟨.operator op :: pending, operands⟩ s

/-- The stacks after a token, which applies waiting operators before it is put away. -/
inductive Steps (afterOperand beforeParen : Bool) (s : Stacks) : Token → Stacks → Prop
  | var {name} :
      Steps afterOperand beforeParen s (.var name) { s with operands := .var name :: s.operands }
  | leftParen : Steps afterOperand beforeParen s .leftParen (s.push .group)
  | group {pending operands} : Applies 0 s ⟨.group :: pending, operands⟩ →
      (∀ g base rest, pending ≠ .call g base :: rest) →
      Steps afterOperand beforeParen s .rightParen ⟨pending, operands⟩
  | call {g base count pending operands} :
      Applies 0 s ⟨.group :: .call g base :: pending, operands⟩ →
      count = operands.length - base → count ≠ 0 →
      Steps afterOperand beforeParen s .rightParen
        ⟨pending, .gate g (operands.take count).reverse :: operands.drop count⟩
  | comma {m} : Applies 0 s m → Steps afterOperand beforeParen s .comma m
  | postfixNot {combined} : Combines .postfixNot s.operands combined →
      Steps afterOperand beforeParen s (.operator .postfixNot) { s with operands := combined }
  | prefixNot {m} : Steps afterOperand beforeParen s (.operator (.prefixNot m))
      (s.push (.operator (.prefixNot m)))
  | mark {m t} : Applies m.gate.precedence s t →
      Steps afterOperand beforeParen s (.operator (.mark m)) (t.push (.operator (.mark m)))
  | word {g t} : (beforeParen && !afterOperand) = false → Applies g.precedence s t →
      Steps afterOperand beforeParen s (.operator (.word g)) (t.push (.operator (.word g)))
  | openCall {g} : (beforeParen && !afterOperand) = true →
      Steps afterOperand beforeParen s (.operator (.word g)) (s.push (.call g s.operands.length))

theorem bind_eq_ok {ε α β : Type} {x : Except ε α} {f : α → Except ε β} {b : β} :
    x.bind f = .ok b ↔ ∃ a, x = .ok a ∧ f a = .ok b := by
  cases x <;> simp [Except.bind]

theorem combines_of_ok {op : Operator} {operands combined : List Expr}
    (ok : applyOperator op operands = .ok combined) : Combines op operands combined := by
  rw [applyOperator.eq_def] at ok
  split at ok
  · rename_i kind
    cases ok
    exact .inverter kind
  · rename_i kind
    cases ok
    exact .gate kind
  · cases ok

theorem applies_of_ok {precedence : Nat} {pending : List Pending} {operands : List Expr}
    {s : Stacks} (ok : applyPending precedence pending operands = .ok s) :
    Applies precedence ⟨pending, operands⟩ s := by
  induction pending generalizing operands with
  | nil =>
    cases ok
    exact .stop nofun
  | cons entry pending ih =>
    cases entry with
    | group | call g base =>
      cases ok
      exact .stop nofun
    | operator op =>
      rw [applyPending] at ok
      split at ok
      · rename_i binds
        obtain ⟨combined, applied, rest⟩ := bind_eq_ok.mp ok
        exact .operator binds (combines_of_ok applied) (ih rest)
      · rename_i loose
        cases ok
        refine .stop ?_
        intro other rest same
        cases same
        omega

theorem steps_of_close {afterOperand beforeParen : Bool} {s next : Stacks}
    (ok : s.close = .ok next) : Steps afterOperand beforeParen s .rightParen next := by
  obtain ⟨m, applied, closed⟩ := bind_eq_ok.mp ok
  have applied : Applies 0 s m := applies_of_ok applied
  obtain ⟨pending, operands⟩ := m
  split at closed
  · rename_i g base pending same
    cases same
    dsimp only at closed
    split at closed
    · cases closed
    · rename_i filled
      cases closed
      exact .call applied rfl filled
  · rename_i pending bare same
    cases same
    cases closed
    exact .group applied (fun g base rest called => bare g base rest (by rw [called]))
  · cases closed

theorem steps_of_ok {afterOperand beforeParen : Bool} {s next : Stacks} {t : Token}
    (ok : s.step afterOperand beforeParen t = .ok next) :
    Steps afterOperand beforeParen s t next := by
  match t with
  | .var name =>
    cases ok
    exact .var
  | .leftParen =>
    cases ok
    exact .leftParen
  | .rightParen => exact steps_of_close ok
  | .comma => exact .comma (applies_of_ok ok)
  | .operator .postfixNot =>
    obtain ⟨combined, applied, result⟩ := bind_eq_ok.mp ok
    cases result
    exact .postfixNot (combines_of_ok applied)
  | .operator (.prefixNot m) =>
    cases ok
    exact .prefixNot
  | .operator (.mark m) =>
    obtain ⟨t, applied, result⟩ := bind_eq_ok.mp ok
    cases result
    exact .mark (applies_of_ok applied)
  | .operator (.word g) =>
    rw [Stacks.step] at ok
    split at ok
    · rename_i called
      cases ok
      exact .openCall called
    · rename_i infixed
      obtain ⟨t, applied, result⟩ := bind_eq_ok.mp ok
      cases result
      exact .word (by simpa using infixed) (applies_of_ok applied)

/-- A run that ends well leaves a single operand and nothing that waits. -/
theorem applies_of_ofTokens {tokens : List Token} {e : Expr} (ok : Expr.ofTokens tokens = .ok e) :
    ∃ last, Stacks.run ⟨[], []⟩ false tokens = .ok last ∧ Applies 0 last ⟨[], [e]⟩ := by
  obtain ⟨last, ran, finished⟩ := bind_eq_ok.mp ok
  obtain ⟨⟨pending, operands⟩, applied, closed⟩ := bind_eq_ok.mp finished
  refine ⟨last, ran, ?_⟩
  have applies : Applies 0 last ⟨pending, operands⟩ := applies_of_ok applied
  match pending, operands, closed with
  | [], [_], closed =>
    cases closed
    exact applies

/-- Negation and gates over operands preserve a property. -/
structure Preserved (P : Expr → Prop) : Prop where
  not : ∀ e, P e → P (.not e)
  gate : ∀ g es, es ≠ [] → (∀ e ∈ es, P e) → P (.gate g es)

section

variable {P : Expr → Prop} (preserved : Preserved P)

include preserved

theorem Combines.forall {op : Operator} {operands combined : List Expr}
    (combines : Combines op operands combined) (each : ∀ e ∈ operands, P e) :
    ∀ e ∈ combined, P e := by
  cases combines with
  | inverter _ =>
    rw [List.forall_mem_cons] at each ⊢
    exact ⟨preserved.not _ each.1, each.2⟩
  | gate _ =>
    rw [List.forall_mem_cons, List.forall_mem_cons] at each
    obtain ⟨right, left, rest⟩ := each
    rw [List.forall_mem_cons]
    refine ⟨preserved.gate _ _ (by simp) ?_, rest⟩
    simp [left, right]

theorem Applies.forall {precedence : Nat} {s t : Stacks} (applies : Applies precedence s t)
    (each : ∀ e ∈ s.operands, P e) : ∀ e ∈ t.operands, P e := by
  induction applies with
  | stop _ => exact each
  | operator _ combines _ ih => exact ih (combines.forall preserved each)

theorem Steps.forall {afterOperand beforeParen : Bool} {s next : Stacks} {t : Token}
    (steps : Steps afterOperand beforeParen s t next) (names : ∀ name, t = .var name → P (.var name))
    (each : ∀ e ∈ s.operands, P e) : ∀ e ∈ next.operands, P e := by
  cases steps with
  | var => exact List.forall_mem_cons.mpr ⟨names _ rfl, each⟩
  | leftParen | prefixNot | openCall _ => exact each
  | group applies _ => exact applies.forall preserved each
  | call applies counted filled =>
    have each := applies.forall preserved each
    rw [List.forall_mem_cons]
    constructor
    · apply preserved.gate
      · simp only [ne_eq, List.reverse_eq_nil_iff, List.take_eq_nil_iff]
        rintro (uncounted | bare)
        · exact filled uncounted
        · exact filled (by simpa [bare] using counted)
      · intro e listed
        exact each e (List.mem_of_mem_take (List.mem_reverse.mp listed))
    · intro e listed
      exact each e (List.mem_of_mem_drop listed)
  | comma applies => exact applies.forall preserved each
  | postfixNot combines => exact combines.forall preserved each
  | mark applies => exact applies.forall preserved each
  | word _ applies => exact applies.forall preserved each

theorem forall_of_run {tokens : List Token} {afterOperand : Bool} {s last : Stacks}
    (ok : s.run afterOperand tokens = .ok last)
    (names : ∀ name, .var name ∈ tokens → P (.var name))
    (each : ∀ e ∈ s.operands, P e) : ∀ e ∈ last.operands, P e := by
  induction tokens generalizing s afterOperand with
  | nil =>
    cases ok
    exact each
  | cons t rest ih =>
    obtain ⟨next, stepped, ran⟩ := bind_eq_ok.mp ok
    refine ih ran (fun name listed => names name (List.mem_cons_of_mem _ listed)) ?_
    apply (steps_of_ok stepped).forall preserved _ each
    rintro name rfl
    exact names name List.mem_cons_self

theorem of_ofTokens {tokens : List Token} {e : Expr} (ok : Expr.ofTokens tokens = .ok e)
    (names : ∀ name, .var name ∈ tokens → P (.var name)) : P e := by
  obtain ⟨last, ran, applies⟩ := applies_of_ofTokens ok
  have each := applies.forall preserved (forall_of_run preserved ran names nofun)
  exact each e List.mem_cons_self

end

end Switching.Parser

namespace Switching.Expr

theorem filled_of_parse {text : String} {e : Expr} (ok : parse text = .ok e) : e.Filled :=
  Parser.of_ofTokens (P := Filled)
    ⟨fun _ inner => filled_not.mpr inner, fun _ _ operands each => filled_gate.mpr ⟨operands, each⟩⟩
    ok fun name _ => filled_var name

theorem legible_of_parse {text : String} {e : Expr} (ok : parse text = .ok e) : e.Legible := by
  refine Parser.of_ofTokens (P := Legible) ⟨?_, ?_⟩ ok ?_
  · exact fun e legible => legible
  · intro g es _ each name listed
    rw [leaves_gate, List.mem_flatMap] at listed
    obtain ⟨e, operand, leaf⟩ := listed
    exact each e operand name leaf
  · intro name token other leaf
    obtain rfl := List.mem_singleton.mp leaf
    exact Token.legible_of_mem_ofText token

end Switching.Expr
