import Switching.Expr.Parts
import Switching.Proofs.Parser.Soundness

/-! What reading keeps of the tokens. Names are put on one stack and gates on the
other, and an operator that is applied takes the operands on top as they lie.
So between the two stacks every name stays in its place and every operator is
counted once, even where an operator reaches for an operand of another group. -/
namespace Switching

namespace Token

def name? : Token → Option String
  | .var name => some name
  | _ => none

/-- What an operator computes. A gate word stands for its gate both between operands and before
a call. -/
def component? : Token → Option Component
  | .operator op => some op.component
  | _ => none

end Token

namespace Expr

/-- What the nodes other than names compute, each before its operands. -/
def components (e : Expr) : List Component := e.gates.filterMap component?

@[simp] theorem components_var (name : String) : components (.var name) = [] := rfl

@[simp] theorem components_not (e : Expr) : components (.not e) = .inverter :: components e := rfl

@[simp] theorem components_gate (g : Gate) (es : List Expr) :
    components (.gate g es) = .gate g :: es.flatMap components := by
  simp only [components, gates, gatesAll_eq_flatMap, List.filterMap_cons, component?,
    List.filterMap_flatMap]
  rfl

end Expr

namespace Place

variable {p : Place} {t : Token} {ts rest : List Token}

theorem length_opened_next (closed : p.closes (t :: rest)) :
    (p.next t).opened.length + [t].count .rightParen = p.opened.length + [t].count .leftParen := by
  match t with
  | .rightParen =>
    have inside : p.opened ≠ [] := by simpa [closes] using closed
    have positive := List.length_pos_of_ne_nil inside
    simp [next]
    omega
  | .leftParen => simp [next]
  | .var _ | .comma | .operator .postfixNot | .operator (.prefixNot _) | .operator (.mark _)
  | .operator (.word _) => simp [next]

/-- Parentheses that close are balanced, and in front of every place more were opened. -/
theorem count_of_closes (closed : p.throughout closes ts) :
    ts.count .rightParen = p.opened.length + ts.count .leftParen ∧
    ∀ before, before <+: ts →
      before.count .rightParen ≤ p.opened.length + before.count .leftParen := by
  induction ts generalizing p with
  | nil =>
    have outside : p.opened = [] := by simpa [throughout, closes] using closed
    simp [outside]
  | cons t rest ih =>
    rw [throughout_cons] at closed
    have here := length_opened_next closed.1
    obtain ⟨balanced, within⟩ := ih closed.2
    have split (paren : Token) (ts : List Token) :
        (t :: ts).count paren = [t].count paren + ts.count paren := by
      rw [← List.singleton_append, List.count_append]
    constructor
    · rw [split _ rest, split _ rest]
      omega
    · intro before listed
      cases before with
      | nil => simp
      | cons u before =>
        obtain ⟨rfl, further⟩ := List.cons_prefix_cons.mp listed
        have later := within before further
        rw [split _ before, split _ before]
        omega

end Place

namespace Parser

/-- The leaves of waiting operands, from the bottom of the stack up. -/
def leavesOf (operands : List Expr) : List String := operands.reverse.flatMap Expr.leaves

def Pending.component? : Pending → Option Component
  | .operator op => some op.component
  | .call g _ => some (.gate g)
  | .group => none

/-- What the nodes on the one stack compute, and what the entries of the other will. -/
def Stacks.components (s : Stacks) : List Component :=
  s.operands.flatMap Expr.components ++ s.pending.filterMap Pending.component?

section

variable {afterOperand beforeParen : Bool} {s next last : Stacks} {t : Token} {ts : List Token}
  {op : Operator} {operands combined : List Expr} {precedence : Nat}

theorem leavesOf_append (above below : List Expr) :
    leavesOf (above ++ below) = leavesOf below ++ leavesOf above := by
  simp only [leavesOf, List.reverse_append, List.flatMap_append]

@[simp] theorem leavesOf_cons (e : Expr) (below : List Expr) :
    leavesOf (e :: below) = leavesOf below ++ e.leaves := by
  simp [leavesOf]

theorem Combines.leaves (combines : Combines op operands combined) :
    leavesOf combined = leavesOf operands := by
  cases combines with
  | inverter _ => simp
  | gate _ => simp

theorem Applies.leaves (applies : Applies precedence s next) :
    leavesOf next.operands = leavesOf s.operands := by
  induction applies with
  | stop _ => rfl
  | operator _ combines _ ih => rw [ih, combines.leaves]

theorem Steps.leaves (steps : Steps afterOperand beforeParen s t next) :
    leavesOf next.operands = leavesOf s.operands ++ t.name?.toList := by
  cases steps with
  | var => simp [Token.name?]
  | leftParen | prefixNot | openCall _ => exact (List.append_nil _).symm
  | group applies _ | comma applies | mark applies | word _ applies =>
    exact applies.leaves.trans (List.append_nil _).symm
  | @call g base count pending operands applies _ _ =>
    -- The operands of the call come off the stack in one piece and go back in its place.
    calc leavesOf (.gate g (operands.take count).reverse :: operands.drop count)
        = leavesOf (operands.drop count) ++ leavesOf (operands.take count) := by
          rw [leavesOf_cons, Expr.leaves_gate, leavesOf, leavesOf]
      _ = leavesOf operands := by rw [← leavesOf_append, List.take_append_drop]
      _ = leavesOf s.operands ++ [] := by rw [applies.leaves, List.append_nil]
  | postfixNot combines => exact combines.leaves.trans (List.append_nil _).symm

theorem leaves_run (ran : s.run afterOperand ts = .ok last) :
    leavesOf last.operands = leavesOf s.operands ++ ts.filterMap Token.name? := by
  induction ts generalizing s afterOperand with
  | nil =>
    cases ran
    exact (List.append_nil _).symm
  | cons t rest ih =>
    obtain ⟨next, stepped, ran⟩ := bind_eq_ok.mp ran
    rw [ih ran, (steps_of_ok stepped).leaves, List.append_assoc]
    cases named : t.name? <;> simp [named]

variable (c : Component)

theorem Combines.components (combines : Combines op operands combined) :
    (combined.flatMap Expr.components).count c =
      (operands.flatMap Expr.components).count c + [op.component].count c := by
  cases combines with
  | inverter kind =>
    simp only [kind, List.flatMap_cons, Expr.components_not, List.count_append, List.count_cons,
      List.count_nil]
    omega
  | gate kind =>
    simp only [kind, List.flatMap_cons, List.flatMap_nil, Expr.components_gate, List.count_append,
      List.count_cons, List.count_nil]
    omega

theorem count_components_cons (entry : Pending) (pending : List Pending) (operands : List Expr) :
    (⟨entry :: pending, operands⟩ : Stacks).components.count c =
      (⟨pending, operands⟩ : Stacks).components.count c + entry.component?.toList.count c := by
  simp only [Stacks.components, List.count_append]
  cases entry with
  | group => rfl
  | operator op | call g base =>
    simp only [List.filterMap_cons, Pending.component?, Option.toList_some, List.count_cons,
      List.count_nil]
    omega

theorem count_components (pending : List Pending) (operands : List Expr) :
    (⟨pending, operands⟩ : Stacks).components.count c =
      (operands.flatMap Expr.components).count c +
        (pending.filterMap Pending.component?).count c := List.count_append

theorem Applies.components (applies : Applies precedence s next) :
    next.components.count c = s.components.count c := by
  induction applies with
  | stop _ => rfl
  | operator _ combines _ ih =>
    have joined := combines.components c
    rw [ih, count_components_cons, count_components, count_components, Pending.component?,
      Option.toList_some]
    omega

theorem Steps.components (steps : Steps afterOperand beforeParen s t next) :
    next.components.count c = s.components.count c + t.component?.toList.count c := by
  cases steps with
  | var => simp [Stacks.components, Token.component?]
  | leftParen => exact count_components_cons c .group s.pending s.operands
  | group applies _ => exact (count_components_cons c .group _ _).symm.trans (applies.components c)
  | comma applies => exact applies.components c
  | @call g base count pending operands applies _ _ =>
    -- The mark of the call has counted for its gate so far; from here on the gate itself does.
    have kept := applies.components c
    have divided : (operands.flatMap Expr.components).count c =
        ((operands.take count).flatMap Expr.components).count c +
          ((operands.drop count).flatMap Expr.components).count c := by
      rw [← List.count_append, ← List.flatMap_append, List.take_append_drop]
    have turned : ((operands.take count).reverse.flatMap Expr.components).count c =
        ((operands.take count).flatMap Expr.components).count c :=
      ((List.reverse_perm _).flatMap_right _).count_eq c
    have waiting := count_components_cons c (.call g base) pending operands
    rw [count_components_cons, waiting, count_components] at kept
    rw [← kept, count_components, List.flatMap_cons, Expr.components_gate, List.cons_append,
      List.count_cons, List.count_append, turned, divided]
    simp only [Pending.component?, Token.component?, Option.toList_some, Option.toList_none,
      List.count_cons, List.count_nil]
    omega
  | postfixNot combines =>
    rw [count_components, combines.components c, Token.component?, Option.toList_some,
      Nat.add_right_comm]
    exact congrArg (· + _) (count_components c s.pending s.operands).symm
  | prefixNot => exact count_components_cons c _ s.pending s.operands
  | mark applies | word _ applies =>
    rw [Stacks.push, count_components_cons]
    exact congrArg (· + _) (applies.components c)
  | openCall _ => exact count_components_cons c _ s.pending s.operands

theorem components_run (ran : s.run afterOperand ts = .ok last) :
    last.components.count c = s.components.count c + (ts.filterMap Token.component?).count c := by
  induction ts generalizing s afterOperand with
  | nil =>
    cases ran
    rfl
  | cons t rest ih =>
    obtain ⟨next, stepped, ran⟩ := bind_eq_ok.mp ran
    rw [ih ran, (steps_of_ok stepped).components c, List.filterMap_cons]
    cases carried : t.component? with
    | none => simp
    | some d =>
      simp only [Option.toList_some, List.count_cons, List.count_nil]
      omega

theorem leaves_of_ofTokens {e : Expr} (ok : Expr.ofTokens ts = .ok e) :
    e.leaves = ts.filterMap Token.name? := by
  obtain ⟨last, ran, applies⟩ := applies_of_ofTokens ok
  have kept : leavesOf [e] = leavesOf last.operands := applies.leaves
  rw [leaves_run ran] at kept
  simpa [leavesOf] using kept

theorem components_of_ofTokens {e : Expr} (ok : Expr.ofTokens ts = .ok e) :
    e.components.count c = (ts.filterMap Token.component?).count c := by
  obtain ⟨last, ran, applies⟩ := applies_of_ofTokens ok
  have kept := applies.components c
  rw [components_run c ran] at kept
  simpa [Stacks.components] using kept

end

end Parser

namespace Expr

/-- An expression that has been read has the names of its text at its leaves, in order, and a node
with operands for every operator, whichever way that is written; the parentheses of the text are
balanced, and none closes before it is opened. -/
theorem parse_conserves {text : String} {e : Expr} (accepted : parse text = .ok e) :
    e.leaves = (Token.ofText text).filterMap Token.name? ∧
    (∀ c, e.components.count c = ((Token.ofText text).filterMap Token.component?).count c) ∧
    e.Filled ∧
    (Token.ofText text).count .rightParen = (Token.ofText text).count .leftParen ∧
    ∀ before, before <+: Token.ofText text →
      before.count .rightParen ≤ before.count .leftParen := by
  obtain ⟨balanced, within⟩ := Place.count_of_closes (Parser.closes_of_ofTokens accepted)
  refine ⟨Parser.leaves_of_ofTokens accepted, fun c => Parser.components_of_ofTokens c accepted,
    filled_of_parse accepted, ?_, ?_⟩
  · simpa [Place.start] using balanced
  · simpa [Place.start] using within

theorem parse_conserves_across_arguments :
    let e := Expr.gate .and [.gate .nand [.gate .xor [.not (.var "a"), .var "b1"]], .not (.var "c")]
    let tokens := Token.ofText "nand(!a, ^b1) c'"
    parse "nand(!a, ^b1) c'" = .ok e ∧
    e.leaves = tokens.filterMap Token.name? ∧
    (∀ c, e.components.count c = (tokens.filterMap Token.component?).count c) ∧
    e.Filled ∧ tokens.count .rightParen = tokens.count .leftParen ∧
    ∀ before, before <+: tokens → before.count .rightParen ≤ before.count .leftParen := by
  intro e tokens
  have accepted : parse "nand(!a, ^b1) c'" = .ok e := rfl
  exact ⟨accepted, parse_conserves accepted⟩

end Expr

end Switching
