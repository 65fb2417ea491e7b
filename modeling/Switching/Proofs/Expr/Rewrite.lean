import Mathlib.Data.List.Basic
import Switching.Expr.Rewrite
import Switching.Proofs.Expr.Pass
import Switching.Proofs.Expr.Vacancy

/-! What the structural rules may do, in the two places where they apply: above
a negation and above a gate. Both keep the value and the names of an
expression, in their order, and over operands in which no negation cancels they
leave none that does, so that a single pass ends in a normal form. -/
namespace Switching.Expr

theorem stripNegations?_eq_some {es bare : List Expr} :
    stripNegations? es = some bare ↔ bare ≠ [] ∧ es = bare.map .not := by
  fun_induction stripNegations? es generalizing bare with
  | case1 e =>
    constructor
    · rintro ⟨⟩
      exact ⟨by simp, rfl⟩
    · rintro ⟨-, spelled⟩
      cases bare with
      | nil => cases spelled
      | cons f rest =>
        simp only [List.map_cons, List.cons.injEq, Expr.not.injEq] at spelled
        obtain ⟨rfl, empty⟩ := spelled
        rw [List.map_eq_nil_iff.mp empty.symm]
  | case2 e rest more ih =>
    rw [Option.map_eq_some_iff]
    constructor
    · rintro ⟨inner, stripped, rfl⟩
      obtain ⟨-, rfl⟩ := ih.mp stripped
      exact ⟨by simp, rfl⟩
    · rintro ⟨-, spelled⟩
      cases bare with
      | nil => cases spelled
      | cons f inner =>
        simp only [List.map_cons, List.cons.injEq, Expr.not.injEq] at spelled
        obtain ⟨rfl, rfl⟩ := spelled
        refine ⟨inner, ih.mpr ⟨?_, rfl⟩, rfl⟩
        rintro rfl
        exact more rfl
  | case3 es single more =>
    constructor
    · rintro ⟨⟩
    · rintro ⟨operands, rfl⟩
      cases bare with
      | nil => exact absurd rfl operands
      | cons f rest => exact absurd rfl (more f (rest.map .not))

theorem stripNegations?_eq_none {es : List Expr} :
    stripNegations? es = none ↔ ∀ bare, bare ≠ [] → es ≠ bare.map .not := by
  rw [Option.eq_none_iff_forall_ne_some]
  exact forall_congr' fun bare => by rw [ne_eq, stripNegations?_eq_some, not_and]

/-- A gate of the kind over operands that are all negated. -/
def overNegations (g : Gate) (bare : List Expr) : Expr := .gate g (bare.map .not)

theorem rewriteNot_cases (e : Expr) :
    e = .not (rewriteNot e) ∨
    (∃ g bare, (g = .and ∨ g = .or) ∧ bare ≠ [] ∧ e = overNegations g bare ∧
      rewriteNot e = .gate g.dual bare) ∨
    (∀ inner, e ≠ .not inner) ∧
      (∀ g bare, g = .and ∨ g = .or → bare ≠ [] → e ≠ overNegations g bare) ∧
      rewriteNot e = .not e := by
  cases e with
  | var name => exact .inr (.inr ⟨nofun, nofun, rfl⟩)
  | not inner => exact .inl rfl
  | gate g es =>
    cases stripped : stripNegations? es with
    | none =>
      refine .inr (.inr ⟨nofun, ?_, by cases g <;> simp [rewriteNot, stripped]⟩)
      rintro h bare - operands spelled
      exact stripNegations?_eq_none.mp stripped bare operands (Expr.gate.inj spelled).2
    | some bare =>
      obtain ⟨operands, rfl⟩ := stripNegations?_eq_some.mp stripped
      cases g with
      | and =>
        exact .inr (.inl ⟨.and, bare, .inl rfl, operands, rfl, by simp [rewriteNot, stripped]⟩)
      | or =>
        exact .inr (.inl ⟨.or, bare, .inr rfl, operands, rfl, by simp [rewriteNot, stripped]⟩)
      | xor | xnor | nand | nor =>
        refine .inr (.inr ⟨nofun, ?_, rfl⟩)
        rintro h bare (rfl | rfl) - spelled <;> cases spelled

theorem rewriteGate_cases (g : Gate) (es : List Expr) :
    (∃ bare, (g = .nand ∨ g = .nor) ∧ bare ≠ [] ∧ es = bare.map .not ∧
      rewriteGate g es = .gate g.base.dual bare) ∨
    (g = .nand ∨ g = .nor → ∀ bare, bare ≠ [] → es ≠ bare.map .not) ∧
      rewriteGate g es = .gate g es := by
  cases stripped : stripNegations? es with
  | none =>
    exact .inr ⟨fun _ => stripNegations?_eq_none.mp stripped,
      by cases g <;> simp [rewriteGate, stripped]⟩
  | some bare =>
    obtain ⟨operands, rfl⟩ := stripNegations?_eq_some.mp stripped
    cases g with
    | nand => exact .inl ⟨bare, .inl rfl, operands, rfl, by simp [rewriteGate, stripped]⟩
    | nor => exact .inl ⟨bare, .inr rfl, operands, rfl, by simp [rewriteGate, stripped]⟩
    | and | or | xor | xnor => exact .inr ⟨by simp, rfl⟩

theorem eval_dual_overNegations (v : String → Bool) {g : Gate} (parity : g.base ≠ .xor)
    (bare : List Expr) : (Expr.gate g.dual bare).eval v = !(overNegations g bare).eval v := by
  have plain : bare.map (eval v) = ((bare.map Expr.not).map (eval v)).map Bool.not := by simp
  rw [overNegations, eval_gate, eval_gate, plain, Gate.eval_dual g parity]

theorem leaves_overNegations (g : Gate) (bare : List Expr) :
    (overNegations g bare).leaves = bare.flatMap leaves := by
  simp [overNegations, List.flatMap_map]

theorem eval_rewriteNot (v : String → Bool) (e : Expr) : (rewriteNot e).eval v = !e.eval v := by
  rcases rewriteNot_cases e with negation | ⟨g, bare, kind, -, rfl, changed⟩ | ⟨-, -, kept⟩
  · rw [negation, eval_not, Bool.not_not, ← negation]
  · rw [changed, eval_dual_overNegations]
    rcases kind with rfl | rfl <;> decide
  · rw [kept, eval_not]

theorem leaves_rewriteNot (e : Expr) : (rewriteNot e).leaves = e.leaves := by
  rcases rewriteNot_cases e with negation | ⟨g, bare, -, -, rfl, changed⟩ | ⟨-, -, kept⟩
  · rw [negation, leaves_not, ← negation]
  · rw [changed, leaves_gate, leaves_overNegations]
  · rw [kept, leaves_not]

theorem eval_rewriteGate (v : String → Bool) (g : Gate) (es : List Expr) :
    (rewriteGate g es).eval v = (Expr.gate g es).eval v := by
  rcases rewriteGate_cases g es with ⟨bare, kind, -, rfl, changed⟩ | ⟨-, kept⟩
  · have inverted : (Expr.gate g (bare.map .not)).eval v = !(overNegations g.base bare).eval v := by
      rw [overNegations, eval_gate, eval_gate, Gate.eval_base]
      rcases kind with rfl | rfl <;> simp [Gate.inverting]
    rw [changed, inverted, eval_dual_overNegations]
    rcases kind with rfl | rfl <;> decide
  · rw [kept]

theorem leaves_rewriteGate (g : Gate) (es : List Expr) :
    (rewriteGate g es).leaves = es.flatMap leaves := by
  rcases rewriteGate_cases g es with ⟨bare, -, -, rfl, changed⟩ | ⟨-, kept⟩
  · rw [changed, leaves_gate, ← leaves_overNegations g, overNegations, leaves_gate]
  · rw [kept, leaves_gate]

theorem eval_rewrite (v : String → Bool) (e : Expr) : e.rewrite.eval v = e.eval v :=
  eval_pass (eval_rewriteNot v) (eval_rewriteGate v) e

theorem leaves_rewrite (e : Expr) : e.rewrite.leaves = e.leaves := by
  induction e with
  | var name => rfl
  | not e ih => rw [rewrite_not, leaves_rewriteNot, ih, leaves_not]
  | gate g es ih =>
    rw [rewrite_gate, leaves_rewriteGate, leaves_gate, List.flatMap_map]
    exact List.flatMap_congr ih

theorem filled_overNegations (g h : Gate) {bare : List Expr} :
    (overNegations g bare).Filled ↔ (Expr.gate h bare).Filled := by
  simp [overNegations]

theorem filled_rewriteNot {e : Expr} (filled : e.Filled) : (rewriteNot e).Filled := by
  rcases rewriteNot_cases e with negation | ⟨g, bare, -, -, rfl, changed⟩ | ⟨-, -, kept⟩
  · rw [negation] at filled
    exact filled_not.mp filled
  · rw [changed, ← filled_overNegations g]
    exact filled
  · rw [kept]
    exact filled_not.mpr filled

theorem filled_rewriteGate {g : Gate} {es : List Expr} (filled : (Expr.gate g es).Filled) :
    (rewriteGate g es).Filled := by
  rcases rewriteGate_cases g es with ⟨bare, -, -, rfl, changed⟩ | ⟨-, kept⟩
  · rw [changed, ← filled_overNegations g]
    exact filled
  · rwa [kept]

theorem filled_rewrite {e : Expr} (filled : e.Filled) : e.rewrite.Filled := by
  induction e with
  | var name => exact filled_var name
  | not e ih => exact filled_rewriteNot (ih (filled_not.mp filled))
  | gate g es ih =>
    obtain ⟨operands, each⟩ := filled_gate.mp filled
    rw [rewrite_gate]
    apply filled_rewriteGate
    rw [filled_gate, ne_eq, List.map_eq_nil_iff, List.forall_mem_map]
    exact ⟨operands, fun f listed => ih f listed (each f listed)⟩

/-- Two negations that meet, and gates that De Morgan's laws free of the negations on all their
operands. -/
inductive Cancels : Expr → Prop
  | double {e} : Cancels (.not (.not e))
  | negated {g bare} : g = .and ∨ g = .or → bare ≠ [] → Cancels (.not (overNegations g bare))
  | inverting {g bare} : g = .nand ∨ g = .nor → bare ≠ [] → Cancels (overNegations g bare)

theorem cancels_gate {g : Gate} {es : List Expr} (cancels : Cancels (.gate g es)) :
    (g = .nand ∨ g = .nor) ∧ ∃ bare, bare ≠ [] ∧ es = bare.map .not := by
  generalize shape : Expr.gate g es = e at cancels
  cases cancels with
  | double | negated _ _ => cases shape
  | inverting kind operands =>
    cases shape
    exact ⟨kind, _, operands, rfl⟩

/-- Under the negations that a gate loses, nothing is negated. -/
theorem freeOf_dual {g h : Gate} {bare : List Expr} (plain : g = .and ∨ g = .or)
    (free : (overNegations h bare).FreeOf Cancels) : (Expr.gate g bare).FreeOf Cancels := by
  have each := (freeOf_iff.mp free).2
  refine freeOf_iff.mpr ⟨?_, ?_⟩
  · intro cancels
    obtain ⟨rfl | rfl, -⟩ := cancels_gate cancels <;>
      rcases plain with other | other <;> cases other
  · intro e listed
    exact (freeOf_iff.mp (each (.not e) (List.mem_map_of_mem listed))).2 e List.mem_cons_self

theorem freeOf_rewriteNot {e : Expr} (free : e.FreeOf Cancels) : (rewriteNot e).FreeOf Cancels := by
  rcases rewriteNot_cases e with negation | ⟨g, bare, kind, -, rfl, changed⟩ | ⟨single, plain, kept⟩
  · rw [negation] at free
    exact (freeOf_iff.mp free).2 _ List.mem_cons_self
  · rw [changed]
    refine freeOf_dual ?_ free
    rcases kind with rfl | rfl
    · exact .inr rfl
    · exact .inl rfl
  · rw [kept]
    refine freeOf_iff.mpr ⟨?_, List.forall_mem_singleton.mpr free⟩
    rintro cancels
    cases cancels with
    | double => exact single _ rfl
    | negated kind operands => exact plain _ _ kind operands rfl

theorem freeOf_rewriteGate {g : Gate} {es : List Expr} (each : ∀ e ∈ es, e.FreeOf Cancels) :
    (rewriteGate g es).FreeOf Cancels := by
  rcases rewriteGate_cases g es with ⟨bare, kind, -, rfl, changed⟩ | ⟨plain, kept⟩
  · have dual : g.base.dual = .and ∨ g.base.dual = .or := by
      rcases kind with rfl | rfl
      · exact .inr rfl
      · exact .inl rfl
    rw [changed]
    -- The operands of an AND over negations are those of the gate, and no rule applies to it.
    refine freeOf_dual (h := .and) dual (freeOf_iff.mpr ⟨?_, each⟩)
    intro cancels
    obtain ⟨other | other, -⟩ := cancels_gate cancels <;> cases other
  · rw [kept]
    refine freeOf_iff.mpr ⟨?_, each⟩
    intro cancels
    obtain ⟨kind, bare, operands, spelled⟩ := cancels_gate cancels
    exact plain kind bare operands spelled

theorem settling_rewrite : Settling Cancels rewriteNot rewriteGate where
  var name := nofun
  freeNot := freeOf_rewriteNot
  freeGate := freeOf_rewriteGate
  keepsNot {e} kept := by
    rcases rewriteNot_cases e with negation | ⟨g, bare, kind, operands, rfl, -⟩ | ⟨-, -, same⟩
    · rw [negation] at kept
      exact absurd .double kept
    · exact absurd (.negated kind operands) kept
    · exact same
  keepsGate {g es} kept := by
    rcases rewriteGate_cases g es with ⟨bare, kind, operands, rfl, -⟩ | ⟨-, same⟩
    · exact absurd (.inverting kind operands) kept
    · exact same

theorem rewrite_rewrite (e : Expr) : e.rewrite.rewrite = e.rewrite := settling_rewrite.pass_pass e

/-- A single pass leaves no part in which a negation cancels, however deep, and keeps every name at
its place. -/
theorem rewrite_normalizes (e : Expr) :
    (∀ part, PartOf part e.rewrite → ¬ Cancels part) ∧ e.rewrite.leaves = e.leaves :=
  ⟨settling_rewrite.freeOf_pass e, leaves_rewrite e⟩

end Switching.Expr
