import Switching.Expr.Parser
import Switching.Token.Grammar

/-! Derivation-directed runs of the operator-precedence parser. The two stacks
and the tokens that follow a phrase are arbitrary; what a phrase leaves behind
is judged by what the next reader of the stacks can see. -/
namespace Switching

/-- Waiting gates of at least this precedence would be applied inside the phrase. -/
def Phrase.bound : Phrase → Nat
  | .arguments => 0
  | .sum => 2
  | .product => 3
  | .factor | .postfixed | .atom => 5

/-- The grammar names the gates of a phrase, the parser tells them by how strongly they bind. -/
theorem Phrase.mem_gates_iff {p : Phrase} {g : Gate} : g ∈ p.gates ↔ g.precedence = p.bound := by
  cases p <;> cases g <;> decide

theorem Reads.denotes {p : Phrase} {ts : List Token} {es : List Expr} (read : Reads p ts es) :
    es ≠ [] := by
  cases read <;> simp

namespace Parser

/-- Whether a phrase of the bound may start over the waiting entries. An open call waits for
its parenthesis first. -/
def Open (bound : Nat) : List Pending → Prop
  | .operator op :: _ => op.precedence < bound
  | .call .. :: _ => False
  | .group :: _ | [] => True

theorem Open.mono {lower upper : Nat} {pending : List Pending} (h : Open lower pending)
    (le : lower ≤ upper) : Open upper pending := by
  cases pending with
  | nil => trivial
  | cons entry rest =>
    cases entry with
    | group => trivial
    | operator op => exact Nat.lt_of_lt_of_le h le
    | call g base => exact h

namespace Stacks

def deliver (s : Stacks) (es : List Expr) : Stacks := { s with operands := es.reverse ++ s.operands }

theorem apply_of_open {bound : Nat} {s : Stacks} (h : Open bound s.pending) :
    s.apply bound = .ok s := by
  obtain ⟨pending, operands⟩ := s
  cases pending with
  | nil => rfl
  | cons entry rest =>
    cases entry with
    | group => rfl
    | operator op =>
      have waits : ¬ bound ≤ op.precedence := Nat.not_le_of_lt h
      simp only [apply, applyPending, if_neg waits]
    | call g base => exact False.elim h

theorem apply_push_operator (op : Operator) {k : Nat} {s : Stacks} (le : k ≤ op.precedence) :
    (s.push (.operator op)).apply k =
      (applyOperator op s.operands).bind fun operands => ({ s with operands } : Stacks).apply k := by
  simp only [push, apply, applyPending, if_pos le]

theorem run_cons (s : Stacks) (afterOperand : Bool) (t : Token) (rest : List Token) :
    s.run afterOperand (t :: rest) =
      (s.step afterOperand (rest.head? = some .leftParen) t).bind fun next =>
        next.run t.endsOperand rest := rfl

theorem step_infix {op : Operator} {g : Gate} (gated : op.component = .gate g) (s : Stacks)
    (beforeParen : Bool) :
    s.step true beforeParen (.operator op) =
      (s.apply g.precedence).bind fun next => .ok (next.push (.operator op)) := by
  cases op with
  | postfixNot | prefixNot m => cases gated
  | mark m => cases gated; rfl
  | word h =>
    cases gated
    simp only [step, Bool.not_true, Bool.and_false, Bool.false_eq_true, if_false]
    rfl

theorem close_group {s : Stacks} {pending : List Pending} {operands : List Expr} {bound : Nat}
    (settled : s.apply 0 = .ok ⟨.group :: pending, operands⟩) (below : Open bound pending) :
    s.close = .ok ⟨pending, operands⟩ := by
  simp only [close, settled, bind, Except.bind]
  cases pending with
  | nil => rfl
  | cons entry rest =>
    cases entry with
    | group | operator op => rfl
    | call g base => exact False.elim below

theorem close_call {s : Stacks} {pending : List Pending} {operands arguments : List Expr}
    {g : Gate} (settled : s.apply 0 =
      .ok ⟨.group :: .call g operands.length :: pending, arguments.reverse ++ operands⟩)
    (given : arguments ≠ []) : s.close = .ok ⟨pending, .gate g arguments :: operands⟩ := by
  have count : (arguments.reverse ++ operands).length - operands.length =
      arguments.reverse.length := by
    rw [List.length_append]
    omega
  have positive : arguments.reverse.length ≠ 0 := by simpa using given
  simp only [close, settled, bind, Except.bind, count, if_neg positive, List.take_left,
    List.drop_left, List.reverse_reverse]
  rfl

theorem run_infix {op : Operator} {g : Gate} (gated : op.component = .gate g) (s : Stacks)
    (rest : List Token) :
    s.run true (.operator op :: rest) =
      (s.apply g.precedence).bind fun next => (next.push (.operator op)).run false rest := by
  have between : (Token.operator op).endsOperand = false := by
    cases op with
    | postfixNot => cases gated
    | prefixNot m | mark m | word h => rfl
  rw [run_cons, step_infix gated, between]
  cases s.apply g.precedence <;> rfl

end Stacks

/-- Those who apply waiting operators up to a bound find the expressions in place. Nothing is
ever applied at a precedence above that of a negation. -/
def Settled (bound : Nat) (s : Stacks) (es : List Expr) (s' : Stacks) : Prop :=
  ∀ k ≤ bound, k ≤ 4 → s'.apply k = (s.deliver es).apply k

/-- What reading a phrase does to the stacks. Its last negations and gates may still wait,
unless a negation behind the phrase would look for an operand. -/
def Delivers (p : Phrase) (s : Stacks) (es : List Expr) (s' : Stacks) : Prop :=
  match p with
  | .atom | .postfixed => s' = s.deliver es
  | p => Settled p.bound s es s'

def PhraseRuns (p : Phrase) (ts : List Token) (es : List Expr) : Prop :=
  ∀ (s : Stacks) (tail : List Token), Open p.bound s.pending →
    ∃ s' : Stacks, s.run false (ts ++ tail) = s'.run true tail ∧ Delivers p s es s'

theorem Delivers.settled {p : Phrase} {s s' : Stacks} {es : List Expr}
    (delivers : Delivers p s es s') : Settled p.bound s es s' := by
  cases p with
  | atom | postfixed =>
    intro k _ _
    rw [show s' = s.deliver es from delivers]
  | arguments | sum | product | factor => exact delivers

theorem Settled.apply_bound {bound : Nat} {s s' : Stacks} {es : List Expr}
    (settled : Settled bound s es s') (small : bound ≤ 4) (start : Open bound s.pending) :
    s'.apply bound = .ok (s.deliver es) := by
  rw [settled bound (Nat.le_refl _) small]
  exact Stacks.apply_of_open start

/-- A gate between two phrases, the right one binding tighter. -/
theorem run_gate {left right : Phrase} {ts us : List Token} {e f : Expr} {op : Operator}
    {g : Gate} (first : PhraseRuns left ts [e]) (second : PhraseRuns right us [f])
    (gated : op.component = .gate g) (level : g.precedence = left.bound)
    (small : left.bound ≤ 4) (tighter : left.bound < right.bound) (s : Stacks)
    (tail : List Token) (start : Open left.bound s.pending) :
    ∃ s' : Stacks, s.run false (ts ++ .operator op :: us ++ tail) = s'.run true tail ∧
      Settled left.bound s [.gate g [e, f]] s' := by
  have precedence : op.precedence = left.bound := by
    rw [Operator.precedence, gated]
    exact level
  obtain ⟨s₁, readLeft, leftDelivers⟩ := first s (.operator op :: us ++ tail) start
  have settled := leftDelivers.settled.apply_bound small start
  obtain ⟨s₂, readRight, rightDelivers⟩ := second ((s.deliver [e]).push (.operator op)) tail
    (show op.precedence < right.bound by omega)
  refine ⟨s₂, ?_, ?_⟩
  · rw [List.append_assoc, readLeft, List.cons_append, Stacks.run_infix gated, level, settled]
    exact readRight
  · intro k le _
    rw [rightDelivers.settled k (by omega) (by omega)]
    have applied := Stacks.apply_push_operator op (k := k)
      (s := (s.deliver [e]).deliver [f]) (by omega)
    simpa [Stacks.deliver, Stacks.push, applyOperator, gated, Except.bind] using applied

theorem run_prefixNot {ts : List Token} {e : Expr} (m : NegationMark)
    (operand : PhraseRuns .factor ts [e]) :
    PhraseRuns .factor (.operator (.prefixNot m) :: ts) [.not e] := by
  intro s tail _
  obtain ⟨s', read, delivers⟩ := operand (s.push (.operator (.prefixNot m))) tail
    (show Component.precedence .inverter < 5 by decide)
  refine ⟨s', read, ?_⟩
  intro k _ le
  rw [delivers.settled k (by simp only [Phrase.bound]; omega) le]
  have applied := Stacks.apply_push_operator (.prefixNot m)
    (s := s.deliver [e]) le
  simpa [Stacks.deliver, Stacks.push, applyOperator, Operator.component, Except.bind] using applied

theorem run_postfixNot {ts : List Token} {e : Expr} (operand : PhraseRuns .postfixed ts [e]) :
    PhraseRuns .postfixed (ts ++ [.operator .postfixNot]) [.not e] := by
  intro s tail start
  obtain ⟨s', read, rfl⟩ := operand s (.operator .postfixNot :: tail) start
  exact ⟨s.deliver [.not e], by rw [List.append_assoc]; exact read, rfl⟩

theorem run_group {ts : List Token} {e : Expr} (inner : PhraseRuns .sum ts [e]) :
    PhraseRuns .atom (.leftParen :: ts ++ [.rightParen]) [e] := by
  intro s tail start
  obtain ⟨s', read, delivers⟩ := inner (s.push .group) (.rightParen :: tail) trivial
  have settled : s'.apply 0 = .ok ⟨.group :: s.pending, (s.deliver [e]).operands⟩ := by
    rw [delivers 0 (by decide) (by decide)]
    rfl
  refine ⟨s.deliver [e], ?_, rfl⟩
  calc s.run false (.leftParen :: ts ++ [.rightParen] ++ tail)
      = (s.push .group).run false (ts ++ .rightParen :: tail) := by
        simp only [List.cons_append, List.append_assoc, List.nil_append]
        rfl
    _ = s'.close.bind fun next => next.run true tail := by rw [read]; rfl
    _ = (s.deliver [e]).run true tail := by rw [Stacks.close_group settled start]; rfl

theorem run_call {ts : List Token} {es : List Expr} (g : Gate) (given : es ≠ [])
    (inner : PhraseRuns .arguments ts es) :
    PhraseRuns .atom (.operator (.word g) :: .leftParen :: ts ++ [.rightParen]) [.gate g es] := by
  intro s tail _
  let opened := (s.push (.call g s.operands.length)).push .group
  obtain ⟨s', read, delivers⟩ := inner opened (.rightParen :: tail) trivial
  have settled : s'.apply 0 =
      .ok ⟨.group :: .call g s.operands.length :: s.pending, es.reverse ++ s.operands⟩ := by
    rw [delivers 0 (by decide) (by decide)]
    rfl
  refine ⟨s.deliver [.gate g es], ?_, rfl⟩
  calc s.run false (.operator (.word g) :: .leftParen :: ts ++ [.rightParen] ++ tail)
      = opened.run false (ts ++ .rightParen :: tail) := by
        simp only [List.cons_append, List.append_assoc, List.nil_append]
        rfl
    _ = s'.close.bind fun next => next.run true tail := by rw [read]; rfl
    _ = (s.deliver [.gate g es]).run true tail := by rw [Stacks.close_call settled given]; rfl

theorem run_arguments {ts us : List Token} {e : Expr} {es : List Expr}
    (first : PhraseRuns .sum ts [e]) (rest : PhraseRuns .arguments us es) :
    PhraseRuns .arguments (ts ++ .comma :: us) (e :: es) := by
  intro s tail start
  obtain ⟨s₁, readFirst, firstDelivers⟩ :=
    first s (.comma :: us ++ tail) (start.mono (by decide))
  have settled : s₁.apply 0 = .ok (s.deliver [e]) := by
    rw [firstDelivers 0 (by decide) (by decide)]
    exact Stacks.apply_of_open start
  obtain ⟨s₂, readRest, restDelivers⟩ := rest (s.deliver [e]) tail start
  refine ⟨s₂, ?_, ?_⟩
  · calc s.run false (ts ++ .comma :: us ++ tail)
        = s₁.run true (.comma :: (us ++ tail)) := by rw [List.append_assoc]; exact readFirst
      _ = (s₁.apply 0).bind fun next => next.run false (us ++ tail) := rfl
      _ = s₂.run true tail := by rw [settled]; exact readRest
  · intro k le small
    rw [restDelivers k le small]
    simp only [Stacks.deliver, List.reverse_cons, List.reverse_nil, List.nil_append,
      List.append_assoc, List.cons_append]

/-- A phrase that binds tighter runs as a looser one, unless that must leave nothing waiting. -/
theorem PhraseRuns.loosen {p q : Phrase} {ts : List Token} {es : List Expr}
    (runs : PhraseRuns p ts es) (le : q.bound ≤ p.bound) (waits : q ≠ .atom ∧ q ≠ .postfixed) :
    PhraseRuns q ts es := by
  intro s tail start
  obtain ⟨s', run, delivers⟩ := runs s tail (start.mono le)
  have settled : Settled q.bound s es s' := fun k small => delivers.settled k (Nat.le_trans small le)
  refine ⟨s', run, ?_⟩
  cases q with
  | atom => exact absurd rfl waits.1
  | postfixed => exact absurd rfl waits.2
  | arguments | sum | product | factor => exact settled

/-- Every derivation of the grammar drives the parser, whatever waits below and follows. -/
theorem phrase_runs {p : Phrase} {ts : List Token} {es : List Expr} (read : Reads p ts es) :
    PhraseRuns p ts es := by
  induction read with
  | product _ ih => exact ih.loosen (by decide) (by decide)
  | sumGate _ gated between _ ihLeft ihRight =>
    exact run_gate ihLeft ihRight gated (Phrase.mem_gates_iff.mp between) (by decide) (by decide)
  | factor _ ih => exact ih.loosen (by decide) (by decide)
  | productGate _ gated between _ ihLeft ihRight =>
    exact run_gate ihLeft ihRight gated (Phrase.mem_gates_iff.mp between) (by decide) (by decide)
  | postfixed _ ih => exact ih.loosen (by decide) (by decide)
  | prefixNot _ ih => exact run_prefixNot _ ih
  | atom _ ih => exact ih
  | postfixNot _ ih => exact run_postfixNot ih
  | var => exact fun s tail _ => ⟨s.deliver [.var _], rfl, rfl⟩
  | group _ ih => exact run_group ih
  | call listed ih => exact run_call _ listed.denotes ih
  | argument _ ih => exact ih.loosen (by decide) (by decide)
  | arguments _ _ ihFirst ihRest => exact run_arguments ihFirst ihRest

end Parser

namespace Expr

theorem ofTokens_of_phraseRuns {ts : List Token} {e : Expr}
    (runs : Parser.PhraseRuns .sum ts [e]) : ofTokens ts = .ok e := by
  obtain ⟨s', run, delivers⟩ := runs ⟨[], []⟩ [] trivial
  have settled : s'.apply 0 = .ok ⟨[], [e]⟩ := delivers 0 (by decide) (by decide)
  rw [List.append_nil] at run
  have finished : s'.finish = .ok e := by
    simp only [Parser.Stacks.finish, settled]
    rfl
  rw [ofTokens, run]
  exact finished

theorem ofTokens_of_reads {ts : List Token} {e : Expr} (read : Reads .sum ts [e]) :
    ofTokens ts = .ok e :=
  ofTokens_of_phraseRuns (Parser.phrase_runs read)

/-- A text of the grammar is read as the expression that the grammar gives it, and the grammar
gives it no other. -/
theorem parse_of_reads {text : String} {e : Expr} (read : Reads .sum (Token.ofText text) [e]) :
    parse text = .ok e ∧ ∀ f, Reads .sum (Token.ofText text) [f] → f = e := by
  refine ⟨ofTokens_of_reads read, ?_⟩
  intro f other
  exact Except.ok.inj ((ofTokens_of_reads other).symm.trans (ofTokens_of_reads read))

theorem parse_word_between_and_before_groups :
    Reads .sum (Token.ofText "a AND (b)' ^ !NAND(a, x1)")
      [.gate .xor [.gate .and [.var "a", .not (.var "b")],
        .not (.gate .nand [.var "a", .var "x1"])]] ∧
    parse "a AND (b)' ^ !NAND(a, x1)" =
      .ok (.gate .xor [.gate .and [.var "a", .not (.var "b")],
        .not (.gate .nand [.var "a", .var "x1"])]) := by
  have name (text : String) : Reads .product [.var text] [.var text] :=
    .factor (.postfixed (.atom .var))
  have negated : Reads .factor [.leftParen, .var "b", .rightParen, .operator .postfixNot]
      [.not (.var "b")] :=
    .postfixed (.postfixNot (.atom (.group (.product (name "b")))))
  have left := Reads.productGate (name "a") (rfl : Operator.component (.word .and) = _)
    (by decide) negated
  have call := Reads.call (Reads.arguments (.product (name "a"))
    (.argument (.product (name "x1")))) (g := .nand)
  have right : Reads .product _ _ :=
    .factor (.prefixNot (.postfixed (.atom call)) (m := .bang))
  have read := Reads.sumGate (.product left) (rfl : Operator.component (.mark .caret) = _)
    (by decide) right
  refine ⟨read, (parse_of_reads ?_).1⟩
  exact read

end Expr

end Switching
