import Switching.Expr.GateFolding
import Switching.Proofs.Expr.Pass
import Switching.Proofs.Expr.Vacancy
import Switching.Proofs.Names

/-! What gate folding may do. Negation changes the gate of its operand and
nothing else. A sum changes only where its two operands are products of the
same two names, every literal of one the complement of its literal in the other. -/
namespace Switching.Expr

def literal (name : String) (plain : Bool) : Expr := if plain then .var name else .not (.var name)

@[simp] theorem leaves_literal (name : String) (plain : Bool) :
    (literal name plain).leaves = [name] := by
  cases plain <;> rfl

@[simp] theorem eval_literal (v : String → Bool) (name : String) (plain : Bool) :
    (literal name plain).eval v = (nameValue v name == plain) := by
  cases plain <;> simp [literal]

@[simp] theorem filled_literal (name : String) (plain : Bool) : (literal name plain).Filled := by
  cases plain <;> simp [literal]

theorem asVar?_eq_some {e : Expr} {name : String} :
    e.asVar? = some name ↔ e = literal name true := by
  cases e <;> simp [asVar?, literal]

theorem asNegatedVar?_eq_some {e : Expr} {name : String} :
    e.asNegatedVar? = some name ↔ e = literal name false := by
  cases e <;> simp [asNegatedVar?, asVar?_eq_some, literal]

theorem perm_pair {a b e f : Expr} (different : e ≠ f) (first : e ∈ [a, b]) (second : f ∈ [a, b]) :
    [a, b].Perm [e, f] := by
  simp only [List.mem_cons, List.not_mem_nil, or_false] at first second
  rcases first with rfl | rfl <;> rcases second with rfl | rfl
  · exact absurd rfl different
  · exact .refl _
  · exact .swap _ _ _
  · exact absurd rfl different

theorem mixedLiterals?_pair {a b : Expr} {x y : String}
    (found : mixedLiterals? [a, b] = some (x, y)) :
    [a, b].Perm [literal x true, literal y false] := by
  rw [mixedLiterals?] at found
  split at found
  · rename_i firstPlain firstNegated
    cases found
    obtain ⟨e, listed, isPlain⟩ := List.exists_of_findSome?_eq_some firstPlain
    obtain ⟨f, alsoListed, isNegated⟩ := List.exists_of_findSome?_eq_some firstNegated
    rw [asVar?_eq_some] at isPlain
    rw [asNegatedVar?_eq_some] at isNegated
    subst e f
    exact perm_pair (by simp [literal]) listed alsoListed
  · cases found

theorem sortedNames?_pair {read : Expr → Option String} {plain : Bool} {a b : Expr} {x y : String}
    (reads : ∀ {e name}, read e = some name ↔ e = literal name plain)
    (found : sortedNames? read a b = some (x, y)) :
    [a, b].Perm [literal x plain, literal y plain] := by
  rw [sortedNames?] at found
  split at found
  · rename_i first second
    rw [reads.mp first, reads.mp second]
    split at found <;> cases found
    · exact .swap _ _ _
    · exact .refl _
  · cases found

theorem not_perm_of_plain_ne {plain : Bool} {x y x' y' : String} {es : List Expr}
    (spelled : es.Perm [literal x plain, literal y plain]) :
    ¬ es.Perm [literal x' (!plain), literal y' (!plain)] := by
  intro other
  have listed : literal x plain ∈ [literal x' (!plain), literal y' (!plain)] :=
    (spelled.symm.trans other).subset (by simp)
  cases plain <;> simp [literal] at listed

/-- Two products over the same two names, in which every literal has its complement. -/
structure Opposite (left right : List Expr) (x y : String) (p q : Bool) : Prop where
  left : left.Perm [literal x p, literal y q]
  right : right.Perm [literal x (!p), literal y (!q)]

theorem spelledXor?_opposite {a b c d folded : Expr}
    (spelled : spelledXor? [a, b] [c, d] = some folded) :
    ∃ x y, Opposite [a, b] [c, d] x y true false ∧ folded = .gate .xor [.var x, .var y] := by
  rw [spelledXor?] at spelled
  split at spelled
  · rename_i x y y' x' first second
    split at spelled
    · rename_i same
      obtain ⟨rfl, rfl⟩ := same
      cases spelled
      exact ⟨x, y, ⟨mixedLiterals?_pair first, (mixedLiterals?_pair second).trans (.swap _ _ _)⟩,
        rfl⟩
    · cases spelled
  · cases spelled

theorem spelledXnor?_opposite {a b c d folded : Expr}
    (spelled : spelledXnor? a b c d = some folded) :
    ∃ x y plain, Opposite [a, b] [c, d] x y plain plain ∧
      folded = .gate .xnor [.var x, .var y] := by
  rw [spelledXnor?] at spelled
  split at spelled
  · rename_i x y negated plainNames negatedNames
    split at spelled
    · rename_i same
      subst negated
      cases spelled
      rw [Option.or_eq_some_iff] at plainNames negatedNames
      rcases plainNames with left | ⟨-, right⟩
      · have left := sortedNames?_pair asVar?_eq_some left
        rcases negatedNames with both | ⟨-, right⟩
        · exact absurd (sortedNames?_pair asNegatedVar?_eq_some both) (not_perm_of_plain_ne left)
        · exact ⟨x, y, true, ⟨left, sortedNames?_pair asNegatedVar?_eq_some right⟩, rfl⟩
      · have right := sortedNames?_pair asVar?_eq_some right
        rcases negatedNames with left | ⟨-, both⟩
        · exact ⟨x, y, false, ⟨sortedNames?_pair asNegatedVar?_eq_some left, right⟩, rfl⟩
        · exact absurd (sortedNames?_pair asNegatedVar?_eq_some both) (not_perm_of_plain_ne right)
    · cases spelled
  · cases spelled

/-- The only sums that gate folding replaces, and what replaces them. -/
theorem spelledExclusive?_cases {es : List Expr} {folded : Expr}
    (spelled : spelledExclusive? es = some folded) :
    ∃ left right x y p q, es = [.gate .and left, .gate .and right] ∧ Opposite left right x y p q ∧
      folded = .gate (if p = q then .xnor else .xor) [.var x, .var y] := by
  rw [spelledExclusive?.eq_def] at spelled
  split at spelled
  · rename_i a b c d
    rcases Option.or_eq_some_iff.mp spelled with exclusive | ⟨-, equal⟩
    · obtain ⟨x, y, opposite, rfl⟩ := spelledXor?_opposite exclusive
      exact ⟨_, _, x, y, true, false, rfl, opposite, rfl⟩
    · obtain ⟨x, y, plain, opposite, rfl⟩ := spelledXnor?_opposite equal
      exact ⟨_, _, x, y, plain, plain, rfl, opposite, by rw [if_pos rfl]⟩
  · cases spelled

theorem foldGate_cases (g : Gate) (es : List Expr) :
    foldGate g es = .gate g es ∨
    ∃ left right x y p q, g = .or ∧ es = [.gate .and left, .gate .and right] ∧
      Opposite left right x y p q ∧
      foldGate g es = .gate (if p = q then .xnor else .xor) [.var x, .var y] := by
  cases g with
  | or =>
    cases spelled : spelledExclusive? es with
    | none => exact .inl (by rw [foldGate, spelled, Option.getD_none])
    | some folded =>
      obtain ⟨left, right, x, y, p, q, rfl, opposite, rfl⟩ := spelledExclusive?_cases spelled
      refine .inr ⟨left, right, x, y, p, q, rfl, rfl, opposite, ?_⟩
      rw [foldGate, spelled, Option.getD_some]
  | and | xor | xnor | nand | nor => exact .inl rfl

theorem foldNot_cases (e : Expr) :
    foldNot e = .not e ∨
    ∃ g es, e = .gate g es ∧ g.inverting = false ∧ foldNot e = .gate g.complement es := by
  match e with
  | .gate .and es | .gate .or es | .gate .xor es => exact .inr ⟨_, es, rfl, rfl, rfl⟩
  | .var _ | .not _ | .gate .xnor _ | .gate .nand _ | .gate .nor _ => exact .inl rfl

theorem filled_foldNot {e : Expr} : (foldNot e).Filled ↔ e.Filled := by
  rcases foldNot_cases e with kept | ⟨g, es, rfl, -, changed⟩
  · rw [kept, filled_not]
  · rw [changed, filled_gate, filled_gate]

theorem filled_perm {g : Gate} {es fs : List Expr} (perm : es.Perm fs) :
    (Expr.gate g es).Filled ↔ (Expr.gate g fs).Filled := by
  have vacant : es = [] ↔ fs = [] :=
    ⟨fun empty => by simpa [empty] using perm, fun empty => by simpa [empty] using perm⟩
  simp only [filled_gate, ne_eq, vacant, perm.mem_iff]

theorem eval_and_perm {es fs : List Expr} (perm : es.Perm fs) (v : String → Bool) :
    (Expr.gate .and es).eval v = (Expr.gate .and fs).eval v := by
  simp only [eval_gate, Gate.eval]
  exact (perm.map _).all_eq

section

variable {left right : List Expr} {x y : String} {p q : Bool}

theorem Opposite.filled (opposite : Opposite left right x y p q) :
    (Expr.gate .and left).Filled ∧ (Expr.gate .and right).Filled := by
  rw [filled_perm opposite.left, filled_perm opposite.right]
  simp

theorem Opposite.leaves (opposite : Opposite left right x y p q) :
    (left.flatMap leaves).Perm [x, y] ∧ (right.flatMap leaves).Perm [x, y] :=
  ⟨by simpa using opposite.left.flatMap_right Expr.leaves,
    by simpa using opposite.right.flatMap_right Expr.leaves⟩

theorem Opposite.eval (opposite : Opposite left right x y p q) (v : String → Bool) :
    (Expr.gate (if p = q then .xnor else .xor) [.var x, .var y]).eval v =
      (Expr.gate .or [.gate .and left, .gate .and right]).eval v := by
  have first := eval_and_perm opposite.left v
  have second := eval_and_perm opposite.right v
  rw [eval_gate v .or]
  simp only [List.map_cons, List.map_nil, first, second]
  simp only [eval_gate, List.map_cons, List.map_nil, eval_literal, eval_var]
  cases p <;> cases q <;> cases nameValue v x <;> cases nameValue v y <;> rfl

end

theorem filled_foldGate {g : Gate} {es : List Expr} :
    (foldGate g es).Filled ↔ (Expr.gate g es).Filled := by
  rcases foldGate_cases g es with kept | ⟨left, right, x, y, p, q, rfl, rfl, opposite, changed⟩
  · rw [kept]
  · rw [changed]
    simp [opposite.filled]

theorem filled_foldGates {e : Expr} : e.foldGates.Filled ↔ e.Filled := by
  induction e with
  | var name => rfl
  | not e ih => rw [foldGates_not, filled_foldNot, ih, filled_not]
  | gate g es ih =>
    rw [foldGates_gate, filled_foldGate, filled_gate, filled_gate]
    simp only [ne_eq, List.map_eq_nil_iff, List.forall_mem_map]
    exact and_congr_right fun _ => forall₂_congr ih

theorem eval_foldNot (v : String → Bool) (e : Expr) : (foldNot e).eval v = !e.eval v := by
  rcases foldNot_cases e with kept | ⟨g, es, rfl, -, changed⟩
  · rw [kept, eval_not]
  · rw [changed, eval_gate, eval_gate, Gate.eval_complement]

theorem eval_foldGate (v : String → Bool) (g : Gate) (es : List Expr) :
    (foldGate g es).eval v = (Expr.gate g es).eval v := by
  rcases foldGate_cases g es with kept | ⟨left, right, x, y, p, q, rfl, rfl, opposite, changed⟩
  · rw [kept]
  · rw [changed, opposite.eval]

theorem eval_foldGates (v : String → Bool) (e : Expr) : e.foldGates.eval v = e.eval v :=
  eval_pass (eval_foldNot v) (eval_foldGate v) e

theorem leaves_foldNot (e : Expr) : (foldNot e).leaves = e.leaves := by
  rcases foldNot_cases e with kept | ⟨g, es, rfl, -, changed⟩
  · rw [kept, leaves_not]
  · rw [changed, leaves_gate, leaves_gate]

theorem mem_leaves_foldGate {name : String} (g : Gate) (es : List Expr) :
    name ∈ (foldGate g es).leaves ↔ name ∈ es.flatMap leaves := by
  rcases foldGate_cases g es with kept | ⟨left, right, x, y, p, q, rfl, rfl, opposite, changed⟩
  · rw [kept, leaves_gate]
  · simp [changed, opposite.leaves.1.mem_iff, opposite.leaves.2.mem_iff]

theorem mem_leaves_foldGates {name : String} {e : Expr} :
    name ∈ e.foldGates.leaves ↔ name ∈ e.leaves := by
  induction e with
  | var name => rfl
  | not e ih => rw [foldGates_not, leaves_foldNot, ih, leaves_not]
  | gate g es ih =>
    rw [foldGates_gate, mem_leaves_foldGate, leaves_gate, List.flatMap_map, List.mem_flatMap,
      List.mem_flatMap]
    exact exists_congr fun e => and_congr_right fun listed => ih e listed

theorem names_foldGates (e : Expr) : e.foldGates.names = e.names :=
  Names.ofList_congr fun _ => mem_leaves_foldGates

end Switching.Expr
