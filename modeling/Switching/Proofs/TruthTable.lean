import Switching.Proofs.Names
import Switching.TruthTable

/-! The columns of a table over enough names are functions of the meaning of
the tabulated expression alone: every valuation has a row that agrees with it
on the names. -/
namespace Switching

namespace Expr

theorem nodup_vars (e : Expr) : e.vars.Nodup := (Names.pairwise_ofList _).nodup

theorem isVariable_of_mem_vars {e : Expr} {name : String} (listed : name ∈ e.vars) :
    isVariable name := (mem_vars.mp listed).2

theorem nameValue_of_isVariable {name : String} (free : isVariable name) (v : String → Bool) :
    nameValue v name = v name := by
  have unbound : constantOf? name = none := by simpa [isVariable] using free
  rw [nameValue, unbound, Option.getD_none]

theorem vars_var_subset (name : String) : (Expr.var name).vars ⊆ [name] := by
  intro other listed
  exact (mem_vars.mp listed).1

theorem vars_constant (b : Bool) : (constant b).vars = [] := by
  cases b <;> decide

end Expr

namespace TruthTable

open Switching.Expr

variable {names : List String} {a b e : Expr} {name : String}

theorem rowValue_cons (first : String) (rest : List String) (bit : Bool) (bits : List Bool)
    (name : String) :
    rowValue (first :: rest) (bit :: bits) name =
      if name = first then bit else rowValue rest bits name := by
  by_cases same : name = first
  · simp [rowValue, same]
  · have apart : (name == first) = false := by simpa using same
    simp [rowValue, List.lookup_cons, apart, same]

/-- The row of a valuation gives every listed name its value. -/
theorem rowValue_map (v : String → Bool) (listed : name ∈ names) :
    rowValue names (names.map v) name = v name := by
  induction names with
  | nil => cases listed
  | cons first rest ih =>
    rw [List.map_cons, rowValue_cons]
    split
    · rename_i same
      rw [same]
    · rename_i different
      exact ih ((List.mem_cons.mp listed).resolve_left different)

theorem column_ofNames (names : List String) (e : Expr) :
    (ofNames names e).column =
      (bitStrings names.length).map fun bits => e.eval (rowValue names bits) := by
  simp [column, ofNames]

theorem eval_row (covers : e.vars ⊆ names) (v : String → Bool) :
    e.eval (rowValue names (names.map v)) = e.eval v :=
  eval_congr fun _ listed => rowValue_map v (covers listed)

theorem map_mem_bitStrings (names : List String) (v : String → Bool) :
    names.map v ∈ bitStrings names.length := by
  simpa using mem_bitStrings (names.map v)

/-- Two expressions have one column exactly if they have one meaning. -/
theorem column_eq_iff (coversA : a.vars ⊆ names) (coversB : b.vars ⊆ names) :
    (ofNames names a).column = (ofNames names b).column ↔ ∀ v, a.eval v = b.eval v := by
  rw [column_ofNames, column_ofNames, List.map_inj_left]
  constructor
  · intro same v
    rw [← eval_row coversA v, same _ (map_mem_bitStrings names v), eval_row coversB]
  · intro same bits _
    exact same _

theorem forall_rows_iff (covers : e.vars ⊆ names) (P : Bool → Prop) :
    (∀ row ∈ (ofNames names e).rows, P row.result) ↔ ∀ v, P (e.eval v) := by
  simp only [ofNames, List.forall_mem_map]
  constructor
  · intro each v
    rw [← eval_row covers v]
    exact each _ (map_mem_bitStrings names v)
  · intro each bits _
    exact each _

theorem isTautology_iff (covers : e.vars ⊆ names) :
    (ofNames names e).isTautology ↔ ∀ v, e.eval v = true := by
  rw [isTautology, List.all_eq_true]
  exact forall_rows_iff covers (· = true)

theorem isContradiction_iff (covers : e.vars ⊆ names) :
    (ofNames names e).isContradiction ↔ ∀ v, e.eval v = false := by
  simp only [isContradiction, List.all_eq_true, Bool.not_eq_true']
  exact forall_rows_iff covers (· = false)

theorem rowValue_getElem {bits : List Bool} {place : Nat} (distinct : names.Nodup)
    (sized : bits.length = names.length) (placed : names[place]? = some name) :
    rowValue names bits name = bits.getD place false := by
  induction names generalizing bits place with
  | nil => cases placed
  | cons first rest ih =>
    obtain ⟨fresh, distinct⟩ := List.nodup_cons.mp distinct
    cases bits with
    | nil => cases sized
    | cons bit bits =>
      rw [rowValue_cons]
      cases place with
      | zero =>
        obtain rfl := Option.some.inj placed
        rw [if_pos rfl]
        rfl
      | succ place =>
        have different : name ≠ first := by
          rintro rfl
          exact fresh (List.mem_of_getElem? placed)
        rw [if_neg different]
        exact ih distinct (Nat.succ.inj sized) placed

/-- The column of the name at a place is that of the name as an expression. -/
theorem nameColumn_eq {place : Nat} (distinct : names.Nodup) (free : isVariable name)
    (placed : names[place]? = some name) :
    (ofNames names e).nameColumn place = (ofNames names (.var name)).column := by
  rw [column_ofNames, nameColumn, ofNames, List.map_map]
  apply List.map_congr_left
  intro bits listed
  have sized := length_of_mem_bitStrings listed
  simp [nameValue_of_isVariable free, rowValue_getElem distinct sized placed]

end TruthTable

namespace Expr

variable {a b : Expr}

end Expr

end Switching
