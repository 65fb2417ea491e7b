import Mathlib.Data.List.Permutation
import Switching.Proofs.Expr.GateFolding
import Switching.Proofs.Expr.Pass

/-! Nothing that is spelled out is missed by gate folding. Literals are recognized in any order of
operands, and over operands in which nothing is spelled out the rules leave nothing that is, so a
single pass ends in an expression that folds to itself. -/
namespace Switching.Expr

section

variable {left right es : List Expr} {x y : String} {p q : Bool} {a b : Expr}

theorem mixedLiterals?_of_perm (spelled : es.Perm [literal x true, literal y false]) :
    mixedLiterals? es = some (x, y) := by
  rcases List.perm_pair.mp spelled with rfl | rfl <;> rfl

/-- Literals of one kind have their names read in one order, whichever comes first. -/
theorem sortedNames?_of_perm {read : Expr → Option String} {plain : Bool}
    (reads : ∀ {e name}, read e = some name ↔ e = literal name plain)
    (spelled : [a, b].Perm [literal x plain, literal y plain]) :
    sortedNames? read a b = some (if y < x then (y, x) else (x, y)) := by
  have first : read (literal x plain) = some x := reads.mpr rfl
  have second : read (literal y plain) = some y := reads.mpr rfl
  rcases List.perm_pair.mp spelled with same | same <;> cases same
  · simp only [sortedNames?, first, second]
  · simp only [sortedNames?, first, second, Option.some.injEq]
    split <;> split
    · rename_i below above
      exact absurd above (String.lt_asymm below)
    · rfl
    · rfl
    · rename_i above below
      rw [String.le_antisymm above below]

theorem sortedNames?_of_opposite {read : Expr → Option String} {plain : Bool}
    (reads : ∀ {e name}, read e = some name ↔ e = literal name plain)
    (spelled : [a, b].Perm [literal x (!plain), literal y (!plain)]) :
    sortedNames? read a b = none := by
  rw [Option.eq_none_iff_forall_ne_some]
  rintro ⟨x', y'⟩ found
  have other := sortedNames?_pair reads found
  rw [← Bool.not_not plain] at other
  exact not_perm_of_plain_ne spelled other

theorem Opposite.swap (opposite : Opposite left right x y p q) : Opposite left right y x q p :=
  ⟨opposite.left.trans (.swap _ _ _), opposite.right.trans (.swap _ _ _)⟩

theorem spelledXor?_of_opposite (opposite : Opposite left right x y p q) (mixed : p ≠ q) :
    (spelledXor? left right).isSome := by
  wlog plain : p = true generalizing x y p q
  · cases p with
    | true => exact absurd rfl plain
    | false => exact this opposite.swap mixed.symm (by simpa using mixed.symm)
  · obtain rfl : q = false := by simpa [plain] using mixed.symm
    subst p
    have second := opposite.right.trans (.swap _ _ _)
    rw [spelledXor?, mixedLiterals?_of_perm opposite.left, mixedLiterals?_of_perm second]
    simp

theorem spelledXnor?_of_opposite {c d : Expr} (opposite : Opposite [a, b] [c, d] x y p p) :
    (spelledXnor? a b c d).isSome := by
  cases p with
  | true =>
    simp [spelledXnor?, sortedNames?_of_perm asVar?_eq_some opposite.left,
      sortedNames?_of_opposite asNegatedVar?_eq_some opposite.left,
      sortedNames?_of_perm asNegatedVar?_eq_some opposite.right]
  | false =>
    simp [spelledXnor?, sortedNames?_of_perm asVar?_eq_some opposite.right,
      sortedNames?_of_opposite asVar?_eq_some opposite.left,
      sortedNames?_of_perm asNegatedVar?_eq_some opposite.left]

theorem spelledExclusive?_of_opposite (opposite : Opposite left right x y p q) :
    (spelledExclusive? [.gate .and left, .gate .and right]).isSome := by
  obtain ⟨a, b, rfl⟩ := List.length_eq_two.mp opposite.left.length_eq
  obtain ⟨c, d, rfl⟩ := List.length_eq_two.mp opposite.right.length_eq
  rw [spelledExclusive?, Option.isSome_or, Bool.or_eq_true]
  by_cases mixed : p = q
  · subst q
    exact .inr (spelledXnor?_of_opposite opposite)
  · exact .inl (spelledXor?_of_opposite opposite mixed)

end

/-- A negated AND, OR or XOR, and a sum of two products over the same two names in which every
literal has its complement. -/
inductive SpelledOut : Expr → Prop
  | negated {g es} : g.inverting = false → SpelledOut (.not (.gate g es))
  | exclusive {left right x y p q} : Opposite left right x y p q →
      SpelledOut (.gate .or [.gate .and left, .gate .and right])

theorem spelledOut_gate {g : Gate} {es : List Expr} (spelled : SpelledOut (.gate g es)) :
    g = .or ∧ foldGate g es ≠ .gate g es := by
  cases spelled with
  | exclusive opposite =>
    obtain ⟨folded, found⟩ := Option.isSome_iff_exists.mp (spelledExclusive?_of_opposite opposite)
    obtain ⟨_, _, _, _, p, q, -, -, rfl⟩ := spelledExclusive?_cases found
    rw [foldGate, found, Option.getD_some]
    refine ⟨rfl, ?_⟩
    cases p <;> cases q <;> simp

theorem foldNot_gate {g : Gate} (plain : g.inverting = false) (es : List Expr) :
    foldNot (.gate g es) = .gate g.complement es := by
  cases g with
  | and | or | xor => rfl
  | xnor | nand | nor => cases plain

theorem freeOf_foldNot {e : Expr} (free : e.FreeOf SpelledOut) : (foldNot e).FreeOf SpelledOut := by
  rcases foldNot_cases e with kept | ⟨g, es, rfl, plain, changed⟩
  · rw [kept]
    refine freeOf_iff.mpr ⟨?_, List.forall_mem_singleton.mpr free⟩
    intro spelled
    cases spelled with
    | negated plain =>
      rw [foldNot_gate plain] at kept
      cases kept
  · rw [changed]
    refine freeOf_iff.mpr ⟨?_, (freeOf_iff.mp free).2⟩
    intro spelled
    obtain rfl : g = .nor := by
      rw [← g.complement_complement, (spelledOut_gate spelled).1]
      rfl
    cases plain

theorem freeOf_foldGate {g : Gate} {es : List Expr} (each : ∀ e ∈ es, e.FreeOf SpelledOut) :
    (foldGate g es).FreeOf SpelledOut := by
  rcases foldGate_cases g es with kept | ⟨left, right, x, y, p, q, -, -, -, changed⟩
  · rw [kept]
    refine freeOf_iff.mpr ⟨?_, each⟩
    intro spelled
    exact (spelledOut_gate spelled).2 kept
  · rw [changed]
    refine freeOf_iff.mpr ⟨?_, ?_⟩
    · intro spelled
      have sum := (spelledOut_gate spelled).1
      split at sum <;> cases sum
    · have name (z : String) : (Expr.var z).FreeOf SpelledOut := freeOf_iff.mpr ⟨nofun, nofun⟩
      exact List.forall_mem_cons.mpr ⟨name x, List.forall_mem_singleton.mpr (name y)⟩

theorem settling_foldGates : Settling SpelledOut foldNot foldGate where
  var name := nofun
  freeNot := freeOf_foldNot
  freeGate := freeOf_foldGate
  keepsNot {e} kept := by
    rcases foldNot_cases e with same | ⟨g, es, rfl, plain, -⟩
    · exact same
    · exact absurd (.negated plain) kept
  keepsGate {g es} kept := by
    rcases foldGate_cases g es with same | ⟨left, right, x, y, p, q, rfl, rfl, opposite, -⟩
    · exact same
    · exact absurd (.exclusive opposite) kept

theorem foldGates_foldGates (e : Expr) : e.foldGates.foldGates = e.foldGates :=
  settling_foldGates.pass_pass e

end Switching.Expr
