import Switching.Proofs.Expr.GateFolding
import Switching.Proofs.Expr.Rewrite

/-! Size and depth count alike: one for a name, and one more than the operands together for anything
else, where together means the sum for the size and the maximum for the depth. What rebuilds an
expression is bounded for both at once, from the monotonicity of that join alone. -/
namespace Switching.Expr

def extent (join : Nat → Nat → Nat) : Expr → Nat :=
  fold (fun _ => 1) (· + 1) fun _ extents => extents.foldr join 0 + 1

theorem extent_add : extent (· + ·) = size := rfl

theorem extent_max : extent max = depth := rfl

section

variable {join : Nat → Nat → Nat}

@[simp] theorem extent_var (name : String) : extent join (.var name) = 1 := rfl

@[simp] theorem extent_not (e : Expr) : extent join (.not e) = extent join e + 1 := rfl

@[simp] theorem extent_gate (g : Gate) (es : List Expr) :
    extent join (.gate g es) = (es.map (extent join)).foldr join 0 + 1 := by
  simp [extent, fold]

theorem extent_pos (e : Expr) : 1 ≤ extent join e := by
  cases e <;> simp

theorem extent_foldNot_le (e : Expr) : extent join (foldNot e) ≤ extent join e + 1 := by
  rcases foldNot_cases e with kept | ⟨g, es, rfl, -, changed⟩
  · rw [kept, extent_not]
  · rw [changed, extent_gate, extent_gate]
    exact Nat.le_succ _

variable (mono : ∀ {a b c d : Nat}, a ≤ b → c ≤ d → join a c ≤ join b d)

include mono

theorem foldr_join_le {es : List Expr} {f g : Expr → Nat} (each : ∀ e ∈ es, f e ≤ g e) :
    (es.map f).foldr join 0 ≤ (es.map g).foldr join 0 := by
  induction es with
  | nil => exact Nat.le_refl 0
  | cons e es ih =>
    exact mono (each e List.mem_cons_self)
      (ih fun other listed => each other (List.mem_cons_of_mem _ listed))

/-- Two names stand where two products stood, and no part counts less than a name. -/
theorem extent_foldGate_le (g : Gate) (es : List Expr) :
    extent join (foldGate g es) ≤ extent join (.gate g es) := by
  rcases foldGate_cases g es with kept | ⟨left, right, x, y, p, q, rfl, rfl, -, changed⟩
  · rw [kept]
  · rw [changed, extent_gate, extent_gate]
    exact Nat.succ_le_succ (mono (extent_pos _) (mono (extent_pos _) (Nat.le_refl 0)))

theorem extent_pass_le {not : Expr → Expr} {gate : Gate → List Expr → Expr}
    (smallNot : ∀ e, extent join (not e) ≤ extent join e + 1)
    (smallGate : ∀ g es, extent join (gate g es) ≤ extent join (.gate g es)) (e : Expr) :
    extent join (fold .var not gate e) ≤ extent join e := by
  induction e with
  | var name => exact Nat.le_refl _
  | not e ih => exact (smallNot _).trans (Nat.succ_le_succ ih)
  | gate g es ih =>
    rw [fold, foldAll_eq_map]
    refine (smallGate g _).trans ?_
    rw [extent_gate, extent_gate, List.map_map]
    exact Nat.succ_le_succ (foldr_join_le mono ih)

theorem extent_foldGates_le (e : Expr) : extent join e.foldGates ≤ extent join e :=
  extent_pass_le mono extent_foldNot_le (extent_foldGate_le mono) e

/-- Operands that are all negated count for no less than what is under their negations. -/
theorem extent_gate_le_overNegations (g h : Gate) (bare : List Expr) :
    extent join (.gate g bare) ≤ extent join (overNegations h bare) := by
  rw [overNegations, extent_gate, extent_gate, List.map_map]
  exact Nat.succ_le_succ (foldr_join_le mono fun e _ => Nat.le_succ _)

theorem extent_rewriteNot_le (e : Expr) : extent join (rewriteNot e) ≤ extent join e + 1 := by
  rcases rewriteNot_cases e with negation | ⟨g, bare, -, -, rfl, changed⟩ | ⟨-, -, kept⟩
  · have smaller : extent join e = extent join (rewriteNot e) + 1 := by
      rw [← extent_not, ← negation]
    omega
  · rw [changed]
    exact (extent_gate_le_overNegations mono _ _ bare).trans (Nat.le_succ _)
  · rw [kept, extent_not]

theorem extent_rewriteGate_le (g : Gate) (es : List Expr) :
    extent join (rewriteGate g es) ≤ extent join (.gate g es) := by
  rcases rewriteGate_cases g es with ⟨bare, -, -, rfl, changed⟩ | ⟨-, kept⟩
  · rw [changed]
    exact extent_gate_le_overNegations mono _ _ bare
  · rw [kept]

theorem extent_rewrite_le (e : Expr) : extent join e.rewrite ≤ extent join e :=
  extent_pass_le mono (extent_rewriteNot_le mono) (extent_rewriteGate_le mono) e

end

/-- Folding spelled-out gates keeps the meaning and the names of an expression, constants included,
and makes it neither larger nor deeper. -/
theorem foldGates_preserves (e : Expr) :
    (∀ v, e.foldGates.eval v = e.eval v) ∧ e.foldGates.names = e.names ∧
      e.foldGates.size ≤ e.size ∧ e.foldGates.depth ≤ e.depth := by
  have smaller : e.foldGates.size ≤ e.size := by
    rw [← extent_add]
    exact extent_foldGates_le Nat.add_le_add e
  have shallower : e.foldGates.depth ≤ e.depth := by
    rw [← extent_max]
    exact extent_foldGates_le (fun first rest => by omega) e
  exact ⟨fun v => eval_foldGates v e, names_foldGates e, smaller, shallower⟩

theorem size_rewrite_le (e : Expr) : e.rewrite.size ≤ e.size := by
  rw [← extent_add]
  exact extent_rewrite_le Nat.add_le_add e

theorem length_leaves_le_size (e : Expr) : e.leaves.length ≤ e.size := by
  induction e using induction_on_operands with
  | var name => exact Nat.le_refl 1
  | component e c named ih =>
    rw [leaves_of_component named, size_of_component named, List.length_flatMap, List.sum_eq_foldr]
    exact (foldr_join_le Nat.add_le_add ih).trans (Nat.le_succ _)

/-- What computes anything has a node besides its leaves. -/
theorem length_leaves_lt_size {e : Expr} {c : Component} (named : e.component? = some c) :
    e.leaves.length < e.size := by
  rw [leaves_of_component named, size_of_component named, List.length_flatMap, List.sum_eq_foldr]
  exact Nat.lt_succ_of_le (foldr_join_le Nat.add_le_add fun e _ => length_leaves_le_size e)

end Switching.Expr
