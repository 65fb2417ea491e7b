import Switching.Proofs.Expr.Catalogue
import Switching.Proofs.Expr.Extent

/-! Simplification replaces an expression of few vars by its form in the
catalogue and only rewrites any other. Neither changes the value, and neither
brings in a var. The catalogue lists every form under itself, and a form is the
smallest expression with its meaning and its vars, so a second simplification
changes nothing and none makes an expression larger. -/
namespace Switching.Expr

variable {e found : Expr}

theorem vars_rewrite (e : Expr) : e.rewrite.vars = e.vars := by
  rw [vars, vars, leaves_rewrite]

/-- An entry of the catalogue means what the expression means. -/
theorem Catalogued.sound (entry : Catalogued e found) :
    found.vars ⊆ e.vars ∧ ∀ v, found.eval v = e.eval v := by
  have free {x : String} (listed : x ∈ e.vars) (v : String → Bool) : nameValue v x = v x :=
    nameValue_of_isVariable (isVariable_of_mem_vars listed) v
  cases entry with
  | constant meaning =>
    refine ⟨by simp [vars_constant], ?_⟩
    intro v
    rw [eval_constant, meaning]
  | var meaning =>
    have named := mem_vars_of_eval true (by simpa using meaning)
    refine ⟨vars_var_subset_of_mem named, ?_⟩
    intro v
    rw [eval_var, free named, meaning]
  | not meaning =>
    have named := mem_vars_of_eval false (by simpa using meaning)
    refine ⟨vars_var_subset_of_mem named, ?_⟩
    intro v
    rw [eval_not, eval_var, free named, meaning]
  | xor pair meaning | xnor pair meaning =>
    rw [pair] at free ⊢
    refine ⟨vars_pair_subset _ _ _, ?_⟩
    intro v
    simp [free, meaning, Gate.eval]

theorem simplify_eq_getD (few : e.vars.length ≤ simplifyLimit) :
    e.simplify = (TruthTable.ofNames e.vars e).catalogued?.getD e.rewrite := by
  have same := TruthTable.ofNames_congr (fun v => eval_rewrite v e) e.vars
  simp only [simplify, vars_rewrite, if_pos few, same]

theorem simplify_cases (e : Expr) : e.simplify = e.rewrite ∨ Catalogued e e.simplify := by
  by_cases few : e.vars.length ≤ simplifyLimit
  · rw [simplify_eq_getD few]
    cases entry : (TruthTable.ofNames e.vars e).catalogued? with
    | none => exact .inl rfl
    | some found => exact .inr (TruthTable.catalogued?_eq_some_iff.mp entry)
  · rw [simplify, vars_rewrite, if_neg few]
    exact .inl rfl

theorem simplify_sound (e : Expr) :
    e.simplify.vars ⊆ e.vars ∧ ∀ v, e.simplify.eval v = e.eval v := by
  rcases simplify_cases e with rewritten | entry
  · rw [rewritten, vars_rewrite]
    exact ⟨List.Subset.refl _, fun v => eval_rewrite v e⟩
  · exact entry.sound

theorem Catalogued.filled (entry : Catalogued e found) : found.Filled := by
  cases entry with
  | constant => exact filled_var _
  | var => exact filled_var _
  | not => exact filled_not.mpr (filled_var _)
  | xor | xnor => simp

theorem filled_simplify (filled : e.Filled) : e.simplify.Filled := by
  rcases simplify_cases e with rewritten | entry
  · rw [rewritten]
    exact filled_rewrite filled
  · exact entry.filled

/-- Neither the structural rules nor the catalogue change a value, however many variables there
are and whether or not they are tabulated. -/
theorem eval_simplify_and_rewrite (e : Expr) (v : String → Bool) :
    e.simplify.eval v = e.eval v ∧ e.rewrite.eval v = e.eval v :=
  ⟨(simplify_sound e).2 v, eval_rewrite v e⟩

theorem simplify_of_catalogued (few : e.vars.length ≤ simplifyLimit) (entry : Catalogued e found) :
    e.simplify = found := by
  rw [simplify_eq_getD few, TruthTable.catalogued?_eq_some_iff.mpr entry, Option.getD_some]

/-- Of few vars, an expression is simplified to the form that its meaning has in the catalogue,
however it is written, and only rewritten if it has none. -/
theorem simplify_by_meaning (few : e.vars.length ≤ simplifyLimit) :
    (∀ found, Catalogued e found → e.simplify = found) ∧
      ((¬ ∃ found, Catalogued e found) → e.simplify = e.rewrite) := by
  rw [simplify_eq_getD few]
  constructor
  · intro found entry
    rw [TruthTable.catalogued?_eq_some_iff.mpr entry, Option.getD_some]
  · intro uncatalogued
    have nothing : (TruthTable.ofNames e.vars e).catalogued? = none := by
      rw [Option.eq_none_iff_forall_ne_some]
      intro found entry
      exact uncatalogued ⟨found, TruthTable.catalogued?_eq_some_iff.mp entry⟩
    rw [nothing, Option.getD_none]

theorem simplify_by_meaning_beside_constants :
    let e := Expr.gate .or [.gate .and [.var "a", .var "b", .var "1"],
      .gate .nor [.not (.var "a"), .var "b", .var "0"]]
    let f := Expr.gate .nand [.not (.var "a"), .not (.var "b")]
    (e.vars.length ≤ simplifyLimit ∧ Catalogued e (.var "a") ∧ e.simplify = .var "a") ∧
    (f.vars.length ≤ simplifyLimit ∧ (¬ ∃ found, Catalogued f found) ∧
      f.simplify = f.rewrite) := by
  intro e f
  have few : e.vars.length ≤ simplifyLimit ∧ f.vars.length ≤ simplifyLimit := by decide
  have entry : Catalogued e (.var "a") := TruthTable.catalogued?_eq_some_iff.mp (by decide)
  have uncatalogued : ¬ ∃ found, Catalogued f found := by
    rintro ⟨found, entry⟩
    have nothing : (TruthTable.ofNames f.vars f).catalogued? = none := by decide
    rw [← TruthTable.catalogued?_eq_some_iff, nothing] at entry
    cases entry
  exact ⟨⟨few.1, entry, (simplify_by_meaning few.1).1 _ entry⟩,
    ⟨few.2, uncatalogued, (simplify_by_meaning few.2).2 uncatalogued⟩⟩

theorem length_vars_le (e : Expr) : e.vars.length ≤ e.leaves.length :=
  (List.subperm_of_subset (nodup_vars e) fun _ listed => (mem_vars.mp listed).1).length_le

theorem vars_pair_of_vars {x y : String} (pair : e.vars = [x, y]) (g : Gate) :
    (Expr.gate g [.var x, .var y]).vars = [x, y] := by
  have each : ∀ name, name ∈ [x, y] → isVariable name := by
    rw [← pair]
    exact fun _ => isVariable_of_mem_vars
  rw [← pair]
  apply Names.ofList_congr
  intro name
  have member : name ∈ e.leaves.filter isVariable ↔ name ∈ [x, y] := by
    rw [← pair, vars, Names.mem_ofList]
  rw [member, List.mem_filter]
  exact and_iff_left_of_imp (each name)

theorem Catalogued.congr {f : Expr} (entry : Catalogued e found) (same : ∀ v, f.eval v = e.eval v)
    (pairs : ∀ g x y, found = .gate g [.var x, .var y] → e.vars = [x, y] → f.vars = [x, y]) :
    Catalogued f found := by
  cases entry with
  | constant meaning => exact .constant fun v => (same v).trans (meaning v)
  | var meaning => exact .var fun v => (same v).trans (meaning v)
  | not meaning => exact .not fun v => (same v).trans (meaning v)
  | xor pair meaning => exact .xor (pairs _ _ _ rfl pair) fun v => (same v).trans (meaning v)
  | xnor pair meaning => exact .xnor (pairs _ _ _ rfl pair) fun v => (same v).trans (meaning v)

/-- The catalogue lists every entry under itself. -/
theorem Catalogued.again (entry : Catalogued e found) : Catalogued found found := by
  apply entry.congr entry.sound.2
  rintro g x y rfl pair
  exact vars_pair_of_vars pair g

theorem Catalogued.unique {other : Expr} (entry : Catalogued e found) (same : Catalogued e other) :
    found = other :=
  Option.some.inj ((TruthTable.catalogued?_eq_some_iff.mpr entry).symm.trans
    (TruthTable.catalogued?_eq_some_iff.mpr same))

theorem Catalogued.few (entry : Catalogued e found) : found.vars.length ≤ simplifyLimit := by
  have short : found.leaves.length ≤ 2 := by
    cases entry with
    | constant _ | var _ | not _ => exact Nat.le_succ 1
    | xor _ _ | xnor _ _ => exact Nat.le_refl 2
  exact (length_vars_le found).trans (short.trans (by decide))

theorem Catalogued.size_le_succ (entry : Catalogued e found) : found.size ≤ e.vars.length + 1 := by
  cases entry with
  | constant _ | var _ => exact Nat.succ_le_succ (Nat.zero_le _)
  | not meaning =>
    have named := mem_vars_of_eval false (by simpa using meaning)
    exact Nat.succ_le_succ (List.length_pos_of_mem named)
  | xor pair _ | xnor pair _ =>
    rw [pair]
    exact Nat.le_refl 3

theorem Catalogued.size_of_var {name : String} (entry : Catalogued (.var name) found) :
    found.size = 1 := by
  cases known : constantOf? name with
  | some b =>
    have constant : Catalogued (.var name) (.constant b) := by
      refine .constant fun v => ?_
      rw [eval_var, nameValue, known, Option.getD_some]
    rw [entry.unique constant]
    rfl
  | none =>
    have itself : Catalogued (.var name) (.var name) := by
      refine .var fun v => ?_
      rw [eval_var, nameValue, known, Option.getD_none]
    rw [entry.unique itself]
    rfl

/-- No expression with the meaning and the vars of an entry is smaller than it. -/
theorem Catalogued.size_le (entry : Catalogued e found) : found.size ≤ e.size := by
  cases named : e.component? with
  | some c =>
    calc found.size ≤ e.vars.length + 1 := entry.size_le_succ
      _ ≤ e.leaves.length + 1 := Nat.succ_le_succ (length_vars_le e)
      _ ≤ e.size := length_leaves_lt_size named
  | none =>
    cases e with
    | var name => exact Nat.le_of_eq entry.size_of_var
    | not e | gate g es => cases named

theorem simplify_rewrite (e : Expr) : e.rewrite.simplify = e.simplify := by
  rw [simplify, rewrite_rewrite, simplify]

/-- Simplifying again changes nothing, and neither step makes an expression larger. -/
theorem simplify_settles (e : Expr) :
    e.simplify.simplify = e.simplify ∧ e.simplify.size ≤ e.rewrite.size ∧
      e.rewrite.size ≤ e.size := by
  rcases simplify_cases e with rewritten | entry
  · refine ⟨?_, Nat.le_of_eq (congrArg size rewritten), size_rewrite_le e⟩
    rw [rewritten, simplify_rewrite, rewritten]
  · have same : Catalogued e.rewrite e.simplify :=
      entry.congr (eval_rewrite · e) fun _ _ _ _ pair => (vars_rewrite e).trans pair
    exact ⟨simplify_of_catalogued entry.few entry.again, same.size_le, size_rewrite_le e⟩

end Switching.Expr
