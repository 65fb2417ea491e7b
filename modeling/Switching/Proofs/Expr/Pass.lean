import Switching.Expr.Parts

/-! Passes over an expression from the operands up, by one rule for negations and one for gates.
What the rules do to their operands decides what the pass does to the whole. A pass settles when its
rules leave no redex over operands that hold none, and change nothing but redexes: it ends in an
expression without redexes, and such an expression it leaves alone. -/
namespace Switching.Expr

/-- No part of the expression is a redex. -/
def FreeOf (redex : Expr → Prop) (e : Expr) : Prop := ∀ part, PartOf part e → ¬ redex part

theorem freeOf_iff {redex : Expr → Prop} {e : Expr} :
    e.FreeOf redex ↔ ¬ redex e ∧ ∀ f ∈ e.operands, f.FreeOf redex := by
  constructor
  · intro free
    exact ⟨free e .self, fun f listed part within => free part (.operand listed within)⟩
  · rintro ⟨root, each⟩ part within
    cases within with
    | self => exact root
    | operand listed within => exact each _ listed part within

section

variable {not : Expr → Expr} {gate : Gate → List Expr → Expr}

theorem eval_pass {v : String → Bool} (negates : ∀ e, (not e).eval v = !e.eval v)
    (computes : ∀ g es, (gate g es).eval v = (Expr.gate g es).eval v) (e : Expr) :
    (fold .var not gate e).eval v = e.eval v := by
  induction e with
  | var name => rfl
  | not e ih => rw [fold, negates, ih, eval_not]
  | gate g es ih =>
    rw [fold, foldAll_eq_map, computes, eval_gate, eval_gate, List.map_map]
    exact congrArg g.eval (List.map_congr_left ih)

/-- Rules that bring no redex in over operands without any, and leave alone what is none. -/
structure Settling (redex : Expr → Prop) (not : Expr → Expr) (gate : Gate → List Expr → Expr) :
    Prop where
  var : ∀ name, ¬ redex (.var name)
  freeNot : ∀ {e}, e.FreeOf redex → (not e).FreeOf redex
  freeGate : ∀ {g es}, (∀ e ∈ es, e.FreeOf redex) → (gate g es).FreeOf redex
  keepsNot : ∀ {e}, ¬ redex (.not e) → not e = .not e
  keepsGate : ∀ {g es}, ¬ redex (.gate g es) → gate g es = .gate g es

variable {redex : Expr → Prop} (settling : Settling redex not gate)

include settling

theorem Settling.freeOf_pass (e : Expr) : (fold .var not gate e).FreeOf redex := by
  induction e with
  | var name => exact freeOf_iff.mpr ⟨settling.var name, nofun⟩
  | not e ih => exact settling.freeNot ih
  | gate g es ih =>
    rw [fold, foldAll_eq_map]
    exact settling.freeGate (List.forall_mem_map.mpr ih)

theorem Settling.pass_of_freeOf {e : Expr} (free : e.FreeOf redex) : fold .var not gate e = e := by
  induction e with
  | var name => rfl
  | not e ih =>
    obtain ⟨root, operand⟩ := freeOf_iff.mp free
    rw [fold, ih (operand e List.mem_cons_self), settling.keepsNot root]
  | gate g es ih =>
    obtain ⟨root, each⟩ := freeOf_iff.mp free
    have kept : es.map (fold .var not gate) = es := by
      rw [List.map_congr_left fun e listed => ih e listed (each e listed), List.map_id']
    rw [fold, foldAll_eq_map, kept, settling.keepsGate root]

/-- A second pass changes nothing. -/
theorem Settling.pass_pass (e : Expr) :
    fold .var not gate (fold .var not gate e) = fold .var not gate e :=
  settling.pass_of_freeOf (settling.freeOf_pass e)

end

end Switching.Expr
