import Mathlib.Algebra.GroupWithZero.Nat
import Switching.Proofs.Parser.Completeness
import Switching.Proofs.Parser.Sentences
import Switching.Proofs.Parser.Steps

/-! What a text that is read proves about its tokens. Operands wait on one stack,
whichever group or argument they stand in, so the run answers only for their
number and for the parentheses. What the counts cannot show must be asked of a
sentence besides. -/
namespace Switching

namespace Parser

/-- The operands that an entry takes beyond the one it leaves behind. -/
def Pending.demand : Pending → Nat
  | .operator op =>
    match op.component with
    | .gate _ => 1
    | _ => 0
  | .group | .call _ _ => 0

/-- The operands that will be left when all that waits is applied. -/
def Stacks.surplus (s : Stacks) : Int := s.operands.length - (s.pending.map Pending.demand).sum

section

variable {afterOperand beforeParen : Bool} {s next last : Stacks} {t : Token} {ts rest : List Token}
  {p : Place}

theorem demand_of_gate {op : Operator} {g : Gate} (gated : op.component = .gate g) :
    (Pending.operator op).demand = 1 := by
  simp only [Pending.demand, gated]

theorem Combines.length {op : Operator} {operands combined : List Expr}
    (combines : Combines op operands combined) :
    combined.length + (Pending.operator op).demand = operands.length := by
  cases combines with
  | inverter kind => simp [Pending.demand, kind]
  | gate kind => simp [demand_of_gate kind]

theorem Applies.surplus {precedence : Nat} (applies : Applies precedence s next) :
    next.surplus = s.surplus := by
  induction applies with
  | stop _ => rfl
  | operator _ combines _ ih =>
    have taken := combines.length
    rw [ih]
    simp only [Stacks.surplus, List.map_cons, List.sum_cons]
    omega

theorem Applies.groups {precedence : Nat} (applies : Applies precedence s next) :
    next.pending.count .group = s.pending.count .group := by
  induction applies with
  | stop _ => rfl
  | operator _ _ _ ih =>
    rw [ih, List.count_cons_of_ne (by simp)]

theorem surplus_cons (entry : Pending) (pending : List Pending) (operands : List Expr) :
    (⟨entry :: pending, operands⟩ : Stacks).surplus =
      (⟨pending, operands⟩ : Stacks).surplus - entry.demand := by
  simp only [Stacks.surplus, List.map_cons, List.sum_cons]
  omega

theorem surplus_push (s : Stacks) (entry : Pending) :
    (s.push entry).surplus = s.surplus - entry.demand := surplus_cons entry s.pending s.operands

/-- A token adds no more than it weighs. A comma takes nothing from the stack. -/
theorem Steps.surplus_le (steps : Steps afterOperand beforeParen s t next) :
    next.surplus ≤ s.surplus + t.weight afterOperand beforeParen + [t].count .comma := by
  cases steps with
  | var =>
    simp only [Stacks.surplus, List.length_cons, Token.weight]
    omega
  | leftParen =>
    simp only [surplus_push, Pending.demand, Token.weight]
    omega
  | group applies _ =>
    have kept := applies.surplus
    simp only [surplus_cons, Pending.demand] at kept
    simp only [Token.weight]
    omega
  | call applies counted filled =>
    -- The arguments of a call leave one operand, so closing it only lowers the surplus.
    have kept := applies.surplus
    simp only [surplus_cons, Pending.demand] at kept
    simp only [Stacks.surplus, List.length_cons, List.length_drop, Token.weight] at kept ⊢
    omega
  | comma applies =>
    rw [applies.surplus, List.count_singleton_self, Token.weight]
    omega
  | postfixNot combines =>
    have taken := combines.length
    simp only [Pending.demand, Operator.component] at taken
    simp only [Stacks.surplus, Token.weight]
    omega
  | prefixNot =>
    simp only [surplus_push, Pending.demand, Operator.component, Token.weight]
    omega
  | mark applies =>
    rw [surplus_push, applies.surplus, demand_of_gate rfl, Token.weight]
    omega
  | word between applies =>
    rw [surplus_push, applies.surplus, demand_of_gate rfl, Token.weight, between]
    simp only [Bool.false_eq_true, if_false]
    omega
  | openCall called =>
    simp only [surplus_push, Pending.demand, Token.weight, called, if_true]
    omega

theorem groups_push {entry : Pending} (other : entry ≠ .group) (s : Stacks) :
    (s.push entry).pending.count .group = s.pending.count .group := List.count_cons_of_ne other

theorem closes_rightParen {groups : Nat} (opened : p.opened.length = groups + 1) :
    p.closes (.rightParen :: rest) ∧ (p.next .rightParen).opened.length = groups := by
  constructor
  · have inside : p.opened ≠ [] := List.ne_nil_of_length_eq_add_one opened
    simpa [Place.closes] using inside
  · rw [Place.next, List.length_tail, opened, Nat.add_sub_cancel]

theorem Steps.closes (steps : Steps afterOperand beforeParen s t next)
    (opened : p.opened.length = s.pending.count .group) :
    p.closes (t :: rest) ∧ (p.next t).opened.length = next.pending.count .group := by
  cases steps with
  | var => exact ⟨rfl, opened⟩
  | leftParen => exact ⟨rfl, by simp [Place.next, Stacks.push, opened]⟩
  | group applies _ =>
    apply closes_rightParen
    rw [opened, ← applies.groups, List.count_cons_self]
  | call applies _ _ =>
    apply closes_rightParen
    rw [opened, ← applies.groups, List.count_cons_self, List.count_cons_of_ne (by simp)]
  | comma applies => exact ⟨rfl, opened.trans applies.groups.symm⟩
  | postfixNot combines => exact ⟨rfl, opened⟩
  | prefixNot | openCall _ => exact ⟨rfl, opened.trans (groups_push (by simp) s).symm⟩
  | @mark _ m applies =>
    have settled := opened.trans applies.groups.symm
    exact ⟨rfl, settled.trans (groups_push (by simp) m).symm⟩
  | @word _ m _ applies =>
    have settled := opened.trans applies.groups.symm
    exact ⟨rfl, settled.trans (groups_push (by simp) m).symm⟩

theorem surplus_run (ran : s.run afterOperand ts = .ok last) :
    last.surplus ≤ s.surplus + Token.balance afterOperand ts + ts.count .comma := by
  induction ts generalizing s afterOperand with
  | nil =>
    cases ran
    simp [Token.balance]
  | cons t rest ih =>
    obtain ⟨next, stepped, ran⟩ := bind_eq_ok.mp ran
    have here := (steps_of_ok stepped).surplus_le
    have further := ih ran
    rw [Token.balance, ← List.singleton_append, List.count_append]
    omega

theorem closes_run (ran : s.run afterOperand ts = .ok last)
    (opened : p.opened.length = s.pending.count .group) (ends : last.pending.count .group = 0) :
    p.throughout Place.closes ts := by
  induction ts generalizing s afterOperand p with
  | nil =>
    cases ran
    simpa [Place.throughout, Place.closes, ends] using opened
  | cons t rest ih =>
    obtain ⟨next, stepped, ran⟩ := bind_eq_ok.mp ran
    obtain ⟨closed, opened⟩ := (steps_of_ok stepped).closes opened
    exact Place.throughout_cons.mpr ⟨closed, ih ran opened⟩

theorem balance_of_ofTokens {e : Expr} (ok : Expr.ofTokens ts = .ok e) :
    1 ≤ Token.balance false ts + ts.count .comma := by
  obtain ⟨last, ran, applies⟩ := applies_of_ofTokens ok
  have counted := surplus_run ran
  have left : last.surplus = 1 := applies.surplus.symm
  rw [left, show (⟨[], []⟩ : Stacks).surplus = 0 from rfl] at counted
  omega

theorem closes_of_ofTokens {e : Expr} (ok : Expr.ofTokens ts = .ok e) :
    Place.start.throughout Place.closes ts := by
  obtain ⟨last, ran, applies⟩ := applies_of_ofTokens ok
  exact closes_run ran rfl applies.groups.symm

end

end Parser

namespace Expr

open Place in
/-- Tokens in which operands never meet are a sentence exactly if they are read and pass besides
what no number of waiting operands shows. -/
theorem reads_iff_ofTokens {ts : List Token} (spaced : start.throughout apart ts) (e : Expr) :
    Reads .sum ts [e] ↔ ofTokens ts = .ok e ∧ start.throughout separates ts ∧
      (.comma ∈ ts → Token.balance false ts = 1) := by
  constructor
  · intro read
    exact ⟨ofTokens_of_reads read, read.separates, fun _ => read.balance⟩
  · rintro ⟨ok, separate, parted⟩
    have full : Token.balance false ts = 1 := by
      by_cases comma : .comma ∈ ts
      · exact parted comma
      · have most : Token.balance false ts + 0 ≤ 1 := balance_le spaced separate
        have least := Parser.balance_of_ofTokens ok
        rw [List.count_eq_zero_of_not_mem comma] at least
        omega
    have fit : start.throughout fits ts :=
      fits_of_balance spaced separate nofun (by rw [start, full]; rfl)
    obtain ⟨f, read⟩ := exists_reads fit separate (Parser.closes_of_ofTokens ok)
    have same : f = e := Except.ok.inj ((ofTokens_of_reads read).symm.trans ok)
    rwa [same] at read

/-- A text is a sentence exactly if it is read, each negation in front of an operand stands where
one is due, each comma directly in a call, and, where there are commas, the names number one more
than the commas and the gates between operands. -/
theorem reads_iff_parse (text : String) (e : Expr) :
    Reads .sum (Token.ofText text) [e] ↔ parse text = .ok e ∧
      Place.start.throughout Place.separates (Token.ofText text) ∧
      (.comma ∈ Token.ofText text → Token.balance false (Token.ofText text) = 1) :=
  reads_iff_ofTokens (Place.throughout_apart_insertProducts (Place.apart_of_due rfl)) e

/-- Texts that are read and are no sentences: a gate takes an operand of another argument, a
negation one in front of it, and the operands of a comma in a group become arguments. -/
theorem parse_beyond_sentences :
    (parse "AND(a,+b)" = .ok (.gate .and [.gate .or [.var "a", .var "b"]]) ∧
      ¬ ∃ e, Reads .sum (Token.ofText "AND(a,+b)") [e]) ∧
    (parse "a!" = .ok (.not (.var "a")) ∧ ¬ ∃ e, Reads .sum (Token.ofText "a!") [e]) ∧
    (parse "AND((a,b))" = .ok (.gate .and [.var "a", .var "b"]) ∧
      ¬ ∃ e, Reads .sum (Token.ofText "AND((a,b))") [e]) := by
  refine ⟨⟨rfl, ?_⟩, ⟨rfl, ?_⟩, ⟨rfl, ?_⟩⟩
  · rintro ⟨e, read⟩
    exact absurd read.balance (by decide)
  · rintro ⟨e, read⟩
    exact absurd read.separates (by decide)
  · rintro ⟨e, read⟩
    exact absurd read.separates (by decide)

end Expr

end Switching
