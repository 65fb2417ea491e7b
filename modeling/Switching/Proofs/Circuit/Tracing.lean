import Switching.Circuit.Trace

/-! One step of tracing, first for the kinds of nodes that a circuit is built
from, then with every way it can end. Proofs about whole circuits cite these and
never open the recursion. -/
namespace Switching.Circuit

variable {α : Type}

section

variable {c : Circuit α} {path : List String} {id : String} {n : Node α}

theorem trace_input (found : c.node? id = some n) (kind : n.kind = .input) :
    c.trace path id = .ok (.var n.label) := by
  rw [trace]
  split
  · simp_all
  · rename_i m again
    obtain rfl := Option.some.inj (found.symm.trans again)
    split <;> simp_all

/-- The answer of a gate whose sources are known, over the path that now includes it. -/
def answer (c : Circuit α) (path : List String) (id : String) :
    Component → List String → Except TraceError Expr
  | .inverter, [source] => (c.trace path source).map .not
  | .gate g, source :: rest => ((source :: rest).mapM (c.trace path)).map (.gate g)
  | component, sources => .error (.arity id component sources.length)

theorem trace_gate {component : Component} (found : c.node? id = some n) (kind : n.kind = .gate)
    (labelled : Component.ofLabel? n.label = some component) (fresh : id ∉ path) :
    c.trace path id = c.answer (id :: path) id component (c.sources id) := by
  rw [trace]
  split
  · simp_all
  · rename_i m again
    obtain rfl := Option.some.inj (found.symm.trans again)
    split
    · simp_all
    · simp_all
    · simp only [labelled, fresh, dite_false]
      rfl

/-- Everything that is traced is traced from the source of the first edge into the output. -/
theorem toExpr_of_driven {output : Node α} {start : String} {rest : List String}
    (found : c.output? = some output) (driven : c.sources output.id = start :: rest) :
    c.toExpr = c.trace [] start := by
  rw [toExpr, found]
  simp only [driven]

end

/-- The expression of a component over its operands. -/
def assemble : Component → List Expr → Expr
  | .inverter, es => .not (es.headD placeholder)
  | .gate g, es => .gate g es

/-- The ways to end at an id that is reached over a path, in the order of the checks. Only a gate
that passes them all is traced further, from all its sources over one longer path. -/
inductive Traced (c : Circuit α) : List String → String → Except TraceError Expr → Prop
  | absent {path id} : c.node? id = none → Traced c path id (.error (.nodeNotFound id))
  | input {path id n} : c.node? id = some n → n.kind = .input → Traced c path id (.ok (.var n.label))
  | output {path id n} : c.node? id = some n → n.kind = .output →
      Traced c path id (.error (.outputAsSource id))
  | unknown {path id n} : c.node? id = some n → n.kind = .gate →
      Component.ofLabel? n.label = none → Traced c path id (.error (.unknownGate id n.label))
  | cycle {path id n k} : c.node? id = some n → n.kind = .gate →
      Component.ofLabel? n.label = some k → id ∈ path → Traced c path id (.error (.cycle id))
  | arity {path id n k} : c.node? id = some n → n.kind = .gate →
      Component.ofLabel? n.label = some k → id ∉ path → ¬ k.accepts (c.sources id).length →
      Traced c path id (.error (.arity id k (c.sources id).length))
  | operands {path id n k} {results : String → Except TraceError Expr} :
      c.node? id = some n → n.kind = .gate → Component.ofLabel? n.label = some k → id ∉ path →
      k.accepts (c.sources id).length →
      (∀ source ∈ c.sources id, Traced c (id :: path) source (results source)) →
      Traced c path id (((c.sources id).mapM results).map (assemble k))

theorem traced (c : Circuit α) (path : List String) (id : String) :
    Traced c path id (c.trace path id) := by
  fun_induction trace c path id with
  | case1 path id found => exact .absent found
  | case2 path id n found kind => exact .input found kind
  | case3 path id n found kind => exact .output found kind
  | case4 path id n found kind label => exact .unknown found kind label
  | case5 path id n found kind k label passed => exact .cycle found kind label passed
  | case6 path id n found kind fresh source sources label ih =>
    have single : (c.trace (id :: path) source).map Expr.not =
        ((c.sources id).mapM (c.trace (id :: path))).map (assemble .inverter) := by
      rw [sources, List.mapM_cons]
      cases c.trace (id :: path) source <;> rfl
    rw [single]
    exact .operands found kind label fresh (by simp [sources]) (by simpa [sources] using ih)
  | case7 path id n found kind fresh g source rest sources label ih =>
    rw [← sources]
    exact .operands found kind label fresh (by simp [sources]) fun source _ => ih source
  | case8 path id n found kind fresh k label notInverter notGate =>
    refine .arity found kind label fresh ?_
    cases k with
    | inverter =>
      rw [Component.accepts_inverter, List.length_eq_one_iff]
      rintro ⟨source, sources⟩
      exact notInverter source rfl sources
    | gate g =>
      rw [Component.accepts_gate, List.length_pos_iff_exists_cons]
      rintro ⟨source, rest, sources⟩
      exact notGate g source rest rfl sources

theorem mapM_eq_ok {ε β γ : Type} {f : β → Except ε γ} {xs : List β} {ys : List γ} :
    xs.mapM f = .ok ys ↔ xs.map f = ys.map .ok := by
  induction xs generalizing ys with
  | nil => cases ys <;> simp [pure, Except.pure]
  | cons x xs ih =>
    rw [List.mapM_cons]
    cases head : f x with
    | error err => cases ys <;> simp [bind, Except.bind, head]
    | ok y =>
      cases tail : xs.mapM f with
      | error err => cases ys <;> simp [bind, Except.bind, ← ih, tail, head]
      | ok rest => cases ys <;> simp [bind, Except.bind, pure, Except.pure, ← ih, tail, head]

theorem exists_of_mapM_eq_ok {ε β γ : Type} {f : β → Except ε γ} {xs : List β} {ys : List γ}
    (ran : xs.mapM f = .ok ys) {x : β} (listed : x ∈ xs) : ∃ y, f x = .ok y := by
  have answered : f x ∈ ys.map .ok := mapM_eq_ok.mp ran ▸ List.mem_map_of_mem listed
  obtain ⟨y, -, result⟩ := List.mem_map.mp answered
  exact ⟨y, result.symm⟩

/-- Results that each have a property of what they come from have it in order. -/
theorem map_eq_of_mapM_eq_ok {ε β γ δ : Type} {f : β → Except ε γ} {xs : List β} {ys : List γ}
    {g : γ → δ} {h : β → δ} (ran : xs.mapM f = .ok ys)
    (each : ∀ x ∈ xs, ∀ y, f x = .ok y → g y = h x) : ys.map g = xs.map h := by
  have same := mapM_eq_ok.mp ran
  clear ran
  induction xs generalizing ys with
  | nil => cases ys with
    | nil => rfl
    | cons y ys => cases same
  | cons x xs ih =>
    cases ys with
    | nil => cases same
    | cons y ys =>
      rw [List.map_cons, List.map_cons, List.cons.injEq] at same
      rw [List.map_cons, List.map_cons, each x List.mem_cons_self y same.1,
        ih (fun x listed => each x (List.mem_cons_of_mem _ listed)) same.2]

theorem exists_of_mapM_eq_error {ε β γ : Type} {f : β → Except ε γ} {xs : List β} {err : ε}
    (failed : xs.mapM f = .error err) : ∃ x ∈ xs, f x = .error err := by
  induction xs with
  | nil => cases failed
  | cons x xs ih =>
    rw [List.mapM_cons] at failed
    cases head : f x with
    | error other =>
      rw [head] at failed
      cases failed
      exact ⟨x, List.mem_cons_self, head⟩
    | ok y =>
      cases tail : xs.mapM f with
      | error other =>
        rw [head, tail] at failed
        cases failed
        obtain ⟨later, listed, same⟩ := ih tail
        exact ⟨later, List.mem_cons_of_mem _ listed, same⟩
      | ok rest =>
        rw [head, tail] at failed
        cases failed

theorem mapM_congr {ε β γ : Type} {f g : β → Except ε γ} {xs : List β}
    (same : ∀ x ∈ xs, f x = g x) : xs.mapM f = xs.mapM g := by
  have through : (xs.map f).mapM id = (xs.map g).mapM id := by rw [List.map_congr_left same]
  simpa only [List.mapM_map, Function.id_comp] using through

/-- There is one way to end at an id over a path, so what ends in it is what tracing answers. -/
theorem Traced.unique {c : Circuit α} {path : List String} {id : String}
    {result other : Except TraceError Expr} (first : Traced c path id result)
    (second : Traced c path id other) : result = other := by
  induction first generalizing other with
  | absent | input | output | unknown | cycle | arity => cases second <;> simp_all
  | operands found kind label fresh accepted _ ih =>
    cases second with
    | operands found' _ label' _ _ each =>
      obtain rfl := Option.some.inj (found.symm.trans found')
      obtain rfl := Option.some.inj (label.symm.trans label')
      rw [mapM_congr fun source listed => ih source listed (each source listed)]
    | _ => simp_all

end Switching.Circuit
