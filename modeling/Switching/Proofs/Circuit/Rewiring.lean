import Mathlib.Data.List.Perm.Basic
import Switching.Proofs.Circuit.Meaning

/-! Edges in another order. The sources of a gate are permuted, at every depth at once, and the
first failure may be another one; but whether tracing succeeds does not change, nor what the traced
expression means, since no gate looks at the order of its operands. -/
namespace Switching

theorem Gate.eval_perm (g : Gate) {values others : List Bool} (perm : values.Perm others) :
    g.eval values = g.eval others := by
  have parity : values.foldr Bool.xor false = others.foldr Bool.xor false :=
    perm.foldr_eq' (fun x _ y _ rest => Bool.xor_left_comm y x rest) false
  cases g with
  | and | nand => simp only [Gate.eval, perm.all_eq]
  | or | nor => simp only [Gate.eval, perm.any_eq]
  | xor | xnor => simp only [Gate.eval, parity]

theorem Component.eval_perm (k : Component) {values others : List Bool}
    (accepted : k.accepts values.length) (perm : values.Perm others) :
    k.eval values = k.eval others := by
  cases k with
  | inverter =>
    obtain ⟨value, rfl⟩ := List.length_eq_one_iff.mp ((Component.accepts_inverter _).mp accepted)
    rw [List.singleton_perm.mp perm]
  | gate g => exact g.eval_perm perm

namespace Circuit

section

variable {ε β γ δ : Type} {f g : β → Except ε γ} {xs xs' : List β} {ys : List γ}

theorem mapM_eq_ok_of_perm (perm : xs'.Perm xs) (ran : xs.mapM f = .ok ys) :
    ∃ ys', xs'.mapM f = .ok ys' ∧ ys'.Perm ys := by
  simp only [mapM_eq_ok] at ran ⊢
  have shuffled : (xs'.map f).Perm (ys.map .ok) := ran ▸ perm.map f
  exact (congrFun₂ (List.eq_map_comp_perm Except.ok) (xs'.map f) ys).mpr shuffled

theorem mapM_eq_ok_of_each {value : γ → δ} (ran : xs.mapM f = .ok ys)
    (each : ∀ x ∈ xs, ∀ y, f x = .ok y → ∃ z, g x = .ok z ∧ value z = value y) :
    ∃ zs, xs.mapM g = .ok zs ∧ zs.map value = ys.map value := by
  simp only [mapM_eq_ok] at ran ⊢
  induction xs generalizing ys with
  | nil =>
    obtain rfl := List.map_eq_nil_iff.mp ran.symm
    exact ⟨[], rfl, rfl⟩
  | cons x xs ih =>
    cases ys with
    | nil => cases ran
    | cons y ys =>
      rw [List.map_cons, List.map_cons, List.cons.injEq] at ran
      obtain ⟨z, head, same⟩ := each x List.mem_cons_self y ran.1
      obtain ⟨zs, tail, rest⟩ := ih (fun x listed => each x (List.mem_cons_of_mem _ listed)) ran.2
      exact ⟨z :: zs, by rw [List.map_cons, List.map_cons, head, tail],
        by rw [List.map_cons, List.map_cons, same, rest]⟩

end

variable {α : Type} {c d : Circuit α} {path : List String} {id : String}

/-- The same nodes, with the same sources in any order. -/
structure Rewired (c d : Circuit α) : Prop where
  nodes : ∀ id, d.node? id = c.node? id
  sources : ∀ id, (d.sources id).Perm (c.sources id)

theorem Rewired.symm (rewired : Rewired c d) : Rewired d c where
  nodes id := (rewired.nodes id).symm
  sources id := (rewired.sources id).symm

theorem rewired_of_perm {edges : List Edge} (perm : c.edges.Perm edges) :
    Rewired c { c with edges } where
  nodes _ := rfl
  sources _ := (perm.symm.filter _).map _

/-- Operands are traced in another order, but each over the path that it was traced over before. -/
theorem Traced.rewired {result : Except TraceError Expr} (walked : Traced c path id result)
    (rewired : Rewired c d) (v : String → Bool) {e : Expr} (ok : result = .ok e) :
    ∃ f, d.trace path id = .ok f ∧ f.eval v = e.eval v := by
  induction walked generalizing e with
  | absent | output | unknown | cycle | arity => cases ok
  | @input path id n found kind =>
    cases ok
    exact ⟨_, trace_input ((rewired.nodes id).trans found) kind, rfl⟩
  | @operands path id n k results found kind known fresh accepted _ ih =>
    cases ran : (c.sources id).mapM results with
    | error err =>
      rw [ran] at ok
      cases ok
    | ok es =>
      rw [ran] at ok
      cases ok
      have order := rewired.sources id
      -- First the same sources in another circuit, operand by operand; only then in its own order.
      obtain ⟨gs, inOrder, same⟩ := mapM_eq_ok_of_each (g := d.trace (id :: path)) ran
        fun source listed e answered => ih source listed answered
      obtain ⟨fs, traced', perm⟩ := mapM_eq_ok_of_perm order inOrder
      have accepted' : k.accepts (d.sources id).length := by rwa [order.length_eq]
      have answer : d.trace path id = .ok (assemble k fs) := by
        have step := Traced.operands ((rewired.nodes id).trans found) kind known fresh accepted'
          fun source _ => traced d (id :: path) source
        rw [traced'] at step
        exact (traced d path id).unique step
      have count : es.length = (c.sources id).length := by
        simpa using (congrArg List.length (mapM_eq_ok.mp ran)).symm
      have values : (fs.map (Expr.eval v)).Perm (es.map (Expr.eval v)) := same ▸ perm.map _
      have total : fs.length = es.length := by simpa using values.length_eq
      have wired : k.accepts es.length := by rwa [count]
      have wired' : k.accepts fs.length := by rwa [total]
      refine ⟨_, answer, ?_⟩
      calc
        (assemble k fs).eval v = k.eval (fs.map (Expr.eval v)) := eval_assemble wired' v
        _ = k.eval (es.map (Expr.eval v)) := k.eval_perm (by simpa using wired') values
        _ = (assemble k es).eval v := (eval_assemble wired v).symm

theorem Rewired.trace_ok (rewired : Rewired c d) {e : Expr} (ok : c.trace path id = .ok e) :
    ∃ f, d.trace path id = .ok f ∧ ∀ v, f.eval v = e.eval v := by
  obtain ⟨f, answer, -⟩ := (traced c path id).rewired rewired (fun _ => false) ok
  refine ⟨f, answer, fun v => ?_⟩
  obtain ⟨f', again, same⟩ := (traced c path id).rewired rewired v ok
  obtain rfl := Except.ok.inj (answer.symm.trans again)
  exact same

theorem head?_sources (c : Circuit α) (id : String) :
    (c.sources id).head? = (c.edges.find? (·.target = id)).map Edge.source := by
  rw [sources, incoming, List.head?_map, List.head?_filter]

theorem Rewired.toExpr_ok (rewired : Rewired c d) (sameOutput : d.output? = c.output?)
    (sameStart : ∀ output, c.output? = some output →
      (d.sources output.id).head? = (c.sources output.id).head?)
    {e : Expr} (ok : c.toExpr = .ok e) : ∃ f, d.toExpr = .ok f ∧ ∀ v, f.eval v = e.eval v := by
  cases found : c.output? with
  | none =>
    rw [toExpr, found] at ok
    cases ok
  | some output =>
    have start := sameStart output found
    cases driven : c.sources output.id with
    | nil =>
      have undriven : d.sources output.id = [] := by simpa [driven] using start
      rw [toExpr, found] at ok
      rw [toExpr, sameOutput, found]
      simp only [driven] at ok
      simp only [undriven]
      exact ⟨e, ok, fun _ => rfl⟩
    | cons first rest =>
      obtain ⟨rest', driven'⟩ : ∃ rest', d.sources output.id = first :: rest' := by
        rwa [driven, List.head?_cons, List.head?_eq_some_iff] at start
      rw [toExpr_of_driven found driven] at ok
      rw [toExpr_of_driven (sameOutput.trans found) driven']
      exact rewired.trace_ok ok

/-- Circuits that differ in the order of their edges, but not in the first edge into the output, are
traced with success together and into expressions of one meaning. -/
theorem toExpr_rewired {edges : List Edge} (perm : c.edges.Perm edges)
    (first : ∀ output, c.output? = some output →
      edges.find? (·.target = output.id) = c.edges.find? (·.target = output.id)) :
    let d : Circuit α := { c with edges }
    ((∃ f, d.toExpr = .ok f) ↔ ∃ e, c.toExpr = .ok e) ∧
      ∀ e f, c.toExpr = .ok e → d.toExpr = .ok f → ∀ v, f.eval v = e.eval v := by
  intro d
  have rewired : Rewired c d := rewired_of_perm perm
  have sameStart : ∀ output, c.output? = some output →
      (d.sources output.id).head? = (c.sources output.id).head? := by
    intro output found
    rw [head?_sources, head?_sources, first output found]
  refine ⟨⟨?_, ?_⟩, ?_⟩
  · rintro ⟨f, ok⟩
    obtain ⟨e, answer, -⟩ := rewired.symm.toExpr_ok rfl (fun o found => (sameStart o found).symm) ok
    exact ⟨e, answer⟩
  · rintro ⟨e, ok⟩
    obtain ⟨f, answer, -⟩ := rewired.toExpr_ok rfl sameStart ok
    exact ⟨f, answer⟩
  · intro e f ok ok'
    obtain ⟨f', answer, same⟩ := rewired.toExpr_ok rfl sameStart ok
    obtain rfl := Except.ok.inj (ok'.symm.trans answer)
    exact same

theorem toExpr_rewired_at_two_depths :
    let p : Position Nat := ⟨0, 0⟩
    let c : Circuit Nat := ⟨[.input "a" p, .input "b" p, .gate "n" (.gate .nand) p,
        .gate "g" (.gate .xor) p, .output "out" p],
      [⟨"e0", "input-a", "n", false⟩, ⟨"e1", "input-b", "n", false⟩, ⟨"e2", "n", "g", false⟩,
        ⟨"e3", "input-b", "g", false⟩, ⟨"e4", "g", "out", true⟩, ⟨"e5", "a", "out", true⟩]⟩
    let edges : List Edge := [⟨"e3", "input-b", "g", false⟩, ⟨"e4", "g", "out", true⟩,
      ⟨"e1", "input-b", "n", false⟩, ⟨"e2", "n", "g", false⟩, ⟨"e5", "a", "out", true⟩,
      ⟨"e0", "input-a", "n", false⟩]
    let d : Circuit Nat := { c with edges }
    c.edges.Perm edges ∧
    (∀ output, c.output? = some output →
      edges.find? (·.target = output.id) = c.edges.find? (·.target = output.id)) ∧
    ((∃ f, d.toExpr = .ok f) ↔ ∃ e, c.toExpr = .ok e) ∧
    ∀ e f, c.toExpr = .ok e → d.toExpr = .ok f → ∀ v, f.eval v = e.eval v := by
  intro p c edges d
  have perm : c.edges.Perm edges := by decide
  have first : ∀ output, c.output? = some output →
      edges.find? (·.target = output.id) = c.edges.find? (·.target = output.id) := by
    intro output found
    have known : c.output? = some (.output "out" p) := rfl
    obtain rfl := Option.some.inj (known.symm.trans found)
    rfl
  exact ⟨perm, first, toExpr_rewired perm first⟩

end Circuit

end Switching
