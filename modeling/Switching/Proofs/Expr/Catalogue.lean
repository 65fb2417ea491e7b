import Switching.Expr.Simplify
import Switching.Proofs.Expr.GateFolding
import Switching.Proofs.TruthTable

/-! The catalogue by meaning. A column over all vars determines the meaning, so
an entry is found exactly if the expression always has its value. No two entries
have the same meaning, which makes the order in which they are tried immaterial. -/
namespace Switching

namespace Expr

/-- The forms that an expression is recognized to have, by the value it always takes. -/
inductive Catalogued (e : Expr) : Expr → Prop
  | constant {b} : (∀ v, e.eval v = b) → Catalogued e (.constant b)
  | var {x} : (∀ v, e.eval v = v x) → Catalogued e (.var x)
  | not {x} : (∀ v, e.eval v = !v x) → Catalogued e (.not (.var x))
  | xor {x y} : e.vars = [x, y] → (∀ v, e.eval v = (v x ^^ v y)) →
      Catalogued e (.gate .xor [.var x, .var y])
  | xnor {x y} : e.vars = [x, y] → (∀ v, e.eval v = !(v x ^^ v y)) →
      Catalogued e (.gate .xnor [.var x, .var y])

variable {e : Expr} {x y : String}

/-- A name that decides the value is among the vars. -/
theorem mem_vars_of_eval (plain : Bool) (meaning : ∀ v, e.eval v = (v x == plain)) :
    x ∈ e.vars := by
  by_contra absent
  have agree : ∀ name ∈ e.vars, true = decide (name ≠ x) := by
    intro name listed
    have different : name ≠ x := fun same => absent (same ▸ listed)
    simp [different]
  have same := eval_congr agree
  rw [meaning, meaning] at same
  cases plain <;> simp at same

theorem eval_literal_of_isVariable (free : isVariable x) (v : String → Bool) (plain : Bool) :
    (literal x plain).eval v = (v x == plain) := by
  rw [eval_literal, nameValue_of_isVariable free]

theorem literal_inj {p q : Bool} (same : ∀ v : String → Bool, (v x == p) = (v y == q)) :
    x = y ∧ p = q := by
  have polarity : p = q := by simpa using same fun _ => true
  subst q
  have name : ((x == x) == p) = ((y == x) == p) := same fun name => name == x
  refine ⟨?_, rfl⟩
  cases p <;> simp_all

theorem vars_var_subset_of_mem (listed : x ∈ e.vars) : (Expr.var x).vars ⊆ e.vars := by
  intro name leaf
  rwa [List.mem_singleton.mp (vars_var_subset x leaf)]

theorem vars_pair_subset (g : Gate) (x y : String) :
    (Expr.gate g [.var x, .var y]).vars ⊆ [x, y] := by
  intro name leaf
  simpa using (mem_vars.mp leaf).1

/-- All names false and all names true tell an exclusive sum from a literal. -/
theorem exclusive_ne_literal (inverted plain : Bool) (z : String) :
    ¬ ∀ v : String → Bool, ((v x ^^ v y) ^^ inverted) = (v z == plain) := by
  intro same
  have low := same fun _ => false
  have high := same fun _ => true
  cases inverted <;> cases plain <;> simp_all

theorem literal_ne_constant (plain b : Bool) : ¬ ∀ v : String → Bool, (v x == plain) = b := by
  intro same
  have opposite := same fun _ => plain ^^ b
  cases plain <;> cases b <;> simp at opposite

theorem exclusive_ne_constant (inverted b : Bool) (different : x ≠ y) :
    ¬ ∀ v : String → Bool, ((v x ^^ v y) ^^ inverted) = b := by
  intro same
  have both := same fun _ => true
  have one := same fun name => name == x
  have apart : (y == x) = false := by simpa using different.symm
  cases inverted <;> cases b <;> simp_all

end Expr

namespace TruthTable

open Switching.Expr

variable {t : TruthTable} {e found : Expr} {name : String} {place : Nat} {plain : Bool}

/-- The column of the literal of the name at a place. -/
def literalColumn (t : TruthTable) (place : Nat) (plain : Bool) : List Bool :=
  if plain then t.nameColumn place else (t.nameColumn place).map Bool.not

theorem literal?_cases (t : TruthTable) (pairs : List (String × Nat)) :
    (∃ name place plain, (name, place) ∈ pairs ∧ t.column = t.literalColumn place plain ∧
      catalogued?.literal? t pairs = some (literal name plain)) ∨
    (∀ name place plain, (name, place) ∈ pairs → t.column ≠ t.literalColumn place plain) ∧
      catalogued?.literal? t pairs = none := by
  induction pairs with
  | nil => exact .inr ⟨nofun, rfl⟩
  | cons pair rest ih =>
    obtain ⟨name, place⟩ := pair
    rw [catalogued?.literal?]
    split
    · rename_i column
      exact .inl ⟨name, place, true, List.mem_cons_self, column, rfl⟩
    · rename_i notPlain
      split
      · rename_i column
        exact .inl ⟨name, place, false, List.mem_cons_self, column, rfl⟩
      · rename_i notNegated
        rcases ih with ⟨name, place, plain, listed, matched⟩ | ⟨unmatched, nothing⟩
        · exact .inl ⟨name, place, plain, List.mem_cons_of_mem _ listed, matched⟩
        · refine .inr ⟨?_, nothing⟩
          intro other elsewhere plain listed
          rcases List.mem_cons.mp listed with same | later
          · cases same
            cases plain
            · exact notNegated
            · exact notPlain
          · exact unmatched other elsewhere plain later

theorem exclusive?_eq_some_iff : catalogued?.exclusive? t = some found ↔
    ∃ x y, t.names = [x, y] ∧
      (found = .gate .xor [.var x, .var y] ∧ t.column = [false, true, true, false] ∨
        found = .gate .xnor [.var x, .var y] ∧ t.column = [true, false, false, true]) := by
  rw [catalogued?.exclusive?]
  constructor
  · intro entry
    split at entry
    · rename_i x y named column
      cases entry
      exact ⟨x, y, named, .inl ⟨rfl, column⟩⟩
    · rename_i x y named column
      cases entry
      exact ⟨x, y, named, .inr ⟨rfl, column⟩⟩
    · cases entry
  · rintro ⟨x, y, named, ⟨rfl, column⟩ | ⟨rfl, column⟩⟩
    · rw [named, column]
    · rw [named, column]

theorem ofNames_congr {a b : Expr} (same : ∀ v, a.eval v = b.eval v) (names : List String) :
    ofNames names a = ofNames names b := by
  simp only [ofNames, same]

theorem column_not (names : List String) (e : Expr) :
    (ofNames names (.not e)).column = (ofNames names e).column.map Bool.not := by
  simp [column_ofNames]

theorem literalColumn_eq (placed : e.vars[place]? = some name) :
    (ofNames e.vars e).literalColumn place plain =
      (ofNames e.vars (literal name plain)).column := by
  have free := isVariable_of_mem_vars (List.mem_of_getElem? placed)
  rw [literalColumn, nameColumn_eq (nodup_vars e) free placed]
  cases plain with
  | true => rfl
  | false => exact (column_not _ _).symm

theorem column_eq_literalColumn_iff (placed : e.vars[place]? = some name) :
    (ofNames e.vars e).column = (ofNames e.vars e).literalColumn place plain ↔
      ∀ v, e.eval v = (v name == plain) := by
  have named : name ∈ e.vars := List.mem_of_getElem? placed
  have inside : (literal name plain).vars ⊆ e.vars := by
    cases plain <;> exact vars_var_subset_of_mem named
  rw [literalColumn_eq placed, column_eq_iff (List.Subset.refl _) inside]
  simp only [eval_literal_of_isVariable (isVariable_of_mem_vars named)]

theorem literal?_eq_some_iff :
    catalogued?.literal? (ofNames e.vars e) e.vars.zipIdx = some found ↔
      ∃ name plain, found = literal name plain ∧ ∀ v, e.eval v = (v name == plain) := by
  rcases literal?_cases (ofNames e.vars e) e.vars.zipIdx with
    ⟨name, place, plain, listed, column, entry⟩ | ⟨unmatched, nothing⟩
  · rw [List.mem_zipIdx_iff_getElem?] at listed
    have meaning := (column_eq_literalColumn_iff listed).mp column
    rw [entry, Option.some.injEq]
    constructor
    · rintro rfl
      exact ⟨name, plain, rfl, meaning⟩
    · -- The first match is the only one: a meaning is that of one literal at most.
      rintro ⟨other, polarity, rfl, otherMeaning⟩
      obtain ⟨rfl, rfl⟩ := literal_inj fun v => (meaning v).symm.trans (otherMeaning v)
      rfl
  · rw [nothing]
    refine ⟨nofun, ?_⟩
    rintro ⟨name, plain, -, meaning⟩
    obtain ⟨place, placed⟩ := List.mem_iff_getElem?.mp (mem_vars_of_eval plain meaning)
    have listed : (name, place) ∈ e.vars.zipIdx := List.mem_zipIdx_iff_getElem?.mpr placed
    have column := (column_eq_literalColumn_iff placed).mpr meaning
    exact absurd column (unmatched name place plain listed)

theorem column_exclusive {x y : String} (freeX : isVariable x) (freeY : isVariable y)
    (different : x ≠ y) :
    (ofNames [x, y] (.gate .xor [.var x, .var y])).column = [false, true, true, false] ∧
    (ofNames [x, y] (.gate .xnor [.var x, .var y])).column = [true, false, false, true] := by
  simp [column_ofNames, bitStrings, rowValue_cons, nameValue_of_isVariable freeX,
    nameValue_of_isVariable freeY, different.symm, Gate.eval]

theorem column_eq_exclusive_iff {x y : String} (pair : e.vars = [x, y]) :
    ((ofNames e.vars e).column = [false, true, true, false] ↔ ∀ v, e.eval v = (v x ^^ v y)) ∧
    ((ofNames e.vars e).column = [true, false, false, true] ↔ ∀ v, e.eval v = !(v x ^^ v y)) := by
  have freeX : isVariable x := isVariable_of_mem_vars (e := e) (by simp [pair])
  have freeY : isVariable y := isVariable_of_mem_vars (e := e) (by simp [pair])
  have different : x ≠ y := by simpa [pair] using nodup_vars e
  obtain ⟨xor, xnor⟩ := column_exclusive freeX freeY different
  have covers : e.vars ⊆ [x, y] := by rw [pair]; exact List.Subset.refl _
  rw [pair, ← xor, ← xnor, column_eq_iff covers (vars_pair_subset _ _ _),
    column_eq_iff covers (vars_pair_subset _ _ _)]
  simp [nameValue_of_isVariable freeX, nameValue_of_isVariable freeY, Gate.eval]

/-- Only literals and exclusive sums are left for an expression that takes both values. -/
theorem catalogued?_of_varied (varied : ∀ b, ¬ ∀ v, e.eval v = b) :
    (ofNames e.vars e).catalogued? =
      (catalogued?.literal? (ofNames e.vars e) e.vars.zipIdx).or
        (catalogued?.exclusive? (ofNames e.vars e)) := by
  have covers := List.Subset.refl e.vars
  rw [catalogued?, if_neg (mt (isTautology_iff covers).mp (varied true)),
    if_neg (mt (isContradiction_iff covers).mp (varied false))]
  rfl

theorem catalogued?_of_constant {b : Bool} (meaning : ∀ v, e.eval v = b) :
    (ofNames e.vars e).catalogued? = some (.constant b) := by
  have covers := List.Subset.refl e.vars
  rw [catalogued?]
  cases b with
  | true => rw [if_pos ((isTautology_iff covers).mpr meaning)]
  | false =>
    have refuted : ¬ (ofNames e.vars e).isTautology := by
      intro tautology
      have high := (isTautology_iff covers).mp tautology fun _ => true
      rw [meaning] at high
      cases high
    rw [if_neg refuted, if_pos ((isContradiction_iff covers).mpr meaning)]

theorem catalogued?_of_literal (plain : Bool) (meaning : ∀ v, e.eval v = (v name == plain)) :
    (ofNames e.vars e).catalogued? = some (literal name plain) := by
  have varied : ∀ b, ¬ ∀ v, e.eval v = b := by
    simp only [meaning]
    exact literal_ne_constant plain
  rw [catalogued?_of_varied varied, literal?_eq_some_iff.mpr ⟨name, plain, rfl, meaning⟩]
  rfl

theorem catalogued?_of_exclusive {x y : String} (inverted : Bool) (pair : e.vars = [x, y])
    (meaning : ∀ v, e.eval v = ((v x ^^ v y) ^^ inverted)) :
    (ofNames e.vars e).catalogued? = catalogued?.exclusive? (ofNames e.vars e) := by
  have different : x ≠ y := by simpa [pair] using nodup_vars e
  have varied : ∀ b, ¬ ∀ v, e.eval v = b := by
    simp only [meaning]
    exact fun b => exclusive_ne_constant inverted b different
  have noLiteral : catalogued?.literal? (ofNames e.vars e) e.vars.zipIdx = none := by
    rw [Option.eq_none_iff_forall_ne_some]
    intro found entry
    obtain ⟨z, plain, -, literal⟩ := literal?_eq_some_iff.mp entry
    simp only [meaning] at literal
    exact exclusive_ne_literal inverted plain z literal
  rw [catalogued?_of_varied varied, noLiteral, Option.none_or]

/-- What the table of an expression over its own vars is recognized as. -/
theorem catalogued?_eq_some_iff :
    (ofNames e.vars e).catalogued? = some found ↔ Catalogued e found := by
  constructor
  · intro entry
    by_cases constant : ∃ b, ∀ v, e.eval v = b
    · obtain ⟨b, meaning⟩ := constant
      rw [catalogued?_of_constant meaning] at entry
      cases entry
      exact .constant meaning
    · rw [catalogued?_of_varied (not_exists.mp constant), Option.or_eq_some_iff] at entry
      rcases entry with entry | ⟨-, entry⟩
      · obtain ⟨name, plain, rfl, meaning⟩ := literal?_eq_some_iff.mp entry
        cases plain with
        | true => exact .var (by simpa using meaning)
        | false => exact .not (by simpa using meaning)
      · obtain ⟨x, y, pair, ⟨rfl, column⟩ | ⟨rfl, column⟩⟩ := exclusive?_eq_some_iff.mp entry
        · exact .xor pair ((column_eq_exclusive_iff pair).1.mp column)
        · exact .xnor pair ((column_eq_exclusive_iff pair).2.mp column)
  · intro entry
    cases entry with
    | constant meaning => exact catalogued?_of_constant meaning
    | var meaning => exact catalogued?_of_literal true (by simpa using meaning)
    | not meaning => exact catalogued?_of_literal false (by simpa using meaning)
    | @xor x y pair meaning =>
      rw [catalogued?_of_exclusive false pair (by simpa using meaning)]
      exact exclusive?_eq_some_iff.mpr
        ⟨x, y, pair, .inl ⟨rfl, (column_eq_exclusive_iff pair).1.mpr meaning⟩⟩
    | @xnor x y pair meaning =>
      rw [catalogued?_of_exclusive true pair (by simpa using meaning)]
      exact exclusive?_eq_some_iff.mpr
        ⟨x, y, pair, .inr ⟨rfl, (column_eq_exclusive_iff pair).2.mpr meaning⟩⟩

end TruthTable

end Switching
