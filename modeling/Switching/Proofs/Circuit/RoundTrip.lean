import Switching.Proofs.Circuit.Drawing
import Switching.Proofs.Circuit.Tracing
import Switching.Proofs.Expr.Recognition

/-! Tracing a drawing back. Gates are numbered before their operands, so the
path never holds the number of a gate still to be met, and the first gate
without operands in the order of numbers is the first defect that tracing
meets. What is traced back has nothing left to fold, so it is drawn as it was. -/
namespace Switching

namespace Geometry

open Switching.Expr

/-- What tracing answers, given the number and kind of the first gate without operands. -/
def outcome {β : Type} (vacant : Option (Nat × Gate)) (result : β) : Except TraceError β :=
  match vacant with
  | none => .ok result
  | some (number, g) => .error (.arity (gateId number) (.gate g) 0)

theorem map_outcome {β γ : Type} (f : β → γ) (vacant : Option (Nat × Gate)) (result : β) :
    (outcome vacant result).map f = outcome vacant (f result) := by
  cases vacant <;> rfl

/-- No gate from a number on has been passed. -/
def Ahead (first : Nat) (path : List String) : Prop := ∀ number, first ≤ number → gateId number ∉ path

theorem Ahead.enter {first : Nat} {path : List String} (ahead : Ahead first path) :
    Ahead (first + 1) (gateId first :: path) := by
  intro number later passed
  rcases List.mem_cons.mp passed with same | before
  · have := gateId_injective same
    omega
  · exact ahead number (by omega) before

theorem Ahead.mono {first later : Nat} {path : List String} (ahead : Ahead first path)
    (below : first ≤ later) : Ahead later path := by
  intro number after
  exact ahead number (by omega)

variable {α : Type} {c : Circuit α} {first : Nat} {path : List String}

theorem Shows.within (before parts after : List Expr) {all : List Expr} {names fewer : List String}
    (drawn : Shows c first names all) (split : all = before ++ parts ++ after)
    (sub : fewer ⊆ names) : Shows c (first + before.length) fewer parts := by
  subst split
  have inside : ∀ k part, parts[k]? = some part →
      (before ++ parts ++ after)[before.length + k]? = some part := by
    intro k part found
    obtain ⟨below, -⟩ := List.getElem?_eq_some_iff.mp found
    rw [List.append_assoc, List.getElem?_append_right (by omega), Nat.add_sub_cancel_left,
      List.getElem?_append_left below, found]
  refine ⟨fun name listed => drawn.inputs name (sub listed), ?_, ?_⟩
  · intro k part found
    rw [Nat.add_assoc]
    exact drawn.gates _ part (inside k part found)
  · intro k part found
    rw [Nat.add_assoc]
    exact drawn.sources _ part (inside k part found)

/-- Tracing gets an expression back from any circuit that shows it. -/
def Traces (c : Circuit α) (e : Expr) : Prop :=
  ∀ first path, Shows c first e.leaves e.gates → Ahead first path →
    c.trace path (rootId first e) = outcome (firstVacant? first e.gates) e

theorem mapM_trace {es : List Expr} (each : ∀ e ∈ es, Traces c e) (ahead : Ahead first path)
    (drawn : Shows c first (es.flatMap leaves) (es.flatMap gates)) :
    (rootIds first es).mapM (c.trace path) = outcome (firstVacant? first (es.flatMap gates)) es := by
  induction es generalizing first with
  | nil => rfl
  | cons e es ih =>
    have head : Shows c first e.leaves e.gates :=
      drawn.within [] e.gates (es.flatMap gates) (by simp) (List.subset_append_left _ _)
    have tail : Shows c (first + e.gates.length) (es.flatMap leaves) (es.flatMap gates) :=
      drawn.within e.gates (es.flatMap gates) [] (by simp) (List.subset_append_right _ _)
    have rest := ih (fun f listed => each f (List.mem_cons_of_mem _ listed))
      (ahead.mono (Nat.le_add_right _ _)) tail
    rw [rootIds, List.mapM_cons, each e List.mem_cons_self first path head ahead, rest,
      List.flatMap_cons, firstVacant?_append]
    cases firstVacant? first e.gates with
    | some vacant => rfl
    | none =>
      cases firstVacant? (first + e.gates.length) (es.flatMap gates) <;> rfl

theorem trace_part {part : Expr} {component : Component} {rest : List Expr}
    (named : part.component? = some component) (ahead : Ahead first path)
    (drawn : Shows c first part.leaves (part :: rest)) :
    c.trace path (gateId first) = c.answer (gateId first :: path) (gateId first) component
      (rootIds (first + 1) part.operands) := by
  obtain ⟨n, found, kind, label⟩ := drawn.gates 0 part rfl
  have sources := drawn.sources 0 part rfl
  rw [Nat.add_zero] at found sources
  have labelled : Component.ofLabel? n.label = some component := by
    simp [label, kindName, named]
  rw [Circuit.trace_gate found kind labelled (ahead first (Nat.le_refl _)), sources]

theorem trace_shows (e : Expr) : Traces c e := by
  induction e with
  | var name =>
    intro first path drawn _
    obtain ⟨n, found, kind, label⟩ := drawn.inputs name (List.mem_singleton_self _)
    rw [rootId, Circuit.trace_input found kind, label]
    rfl
  | not e ih =>
    intro first path drawn ahead
    have inner : Shows c (first + 1) e.leaves e.gates :=
      drawn.within [.not e] e.gates [] (by simp [gates]) (List.Subset.refl _)
    rw [rootId_not, trace_part rfl ahead drawn, operands, rootIds, rootIds, Circuit.answer,
      ih (first + 1) _ inner ahead.enter, map_outcome]
    rfl
  | gate g es ih =>
    intro first path drawn ahead
    rw [gates, gatesAll_eq_flatMap] at drawn
    rw [rootId_gate, trace_part rfl ahead drawn, operands, gates, gatesAll_eq_flatMap]
    cases es with
    | nil => rfl
    | cons e es =>
      have inner : Shows c (first + 1) ((e :: es).flatMap leaves) ((e :: es).flatMap gates) := by
        rw [leaves_gate] at drawn
        exact drawn.within [_] _ [] (List.append_nil _).symm (List.Subset.refl _)
      have each := mapM_trace ih ahead.enter inner
      rw [rootIds] at each
      rw [rootIds, Circuit.answer, each, map_outcome]
      rfl

variable [Coordinate α]

theorem toExpr_draw (geometry : Geometry α) (e : Expr) :
    (geometry.draw e).toExpr = outcome (firstVacant? 0 e.gates) e := by
  have present : (geometry.draw e).output?.isSome := by
    obtain ⟨n, listed, same⟩ : ∃ n ∈ (geometry.draw e).nodes, summary n = _ :=
      mem_draw.mpr (.inr (.inr rfl))
    rw [Circuit.output?, List.find?_isSome]
    have kind : n.kind = .output := congrArg (·.2.1) same
    exact ⟨n, listed, by simpa using kind⟩
  obtain ⟨output, found⟩ := Option.isSome_iff_exists.mp present
  have kind : output.kind = .output := by simpa using List.find?_some found
  have named : output.id = outputId := by
    obtain ⟨name, _, same⟩ | ⟨k, part, _, same⟩ | same :=
      mem_draw.mp ⟨output, List.mem_of_find?_eq_some found, rfl⟩
    all_goals simp only [summary, Prod.mk.injEq, kind, reduceCtorEq, false_and, and_false] at same
    exact same.1
  rw [Circuit.toExpr, found]
  simp only [named, sources_output]
  exact trace_shows e 0 [] (shows_draw geometry e) fun _ _ => List.not_mem_nil

theorem toExpr_draw_of_filled (geometry : Geometry α) {e : Expr} (filled : e.Filled) :
    (geometry.draw e).toExpr = .ok e := by
  rw [toExpr_draw, firstVacant?_gates.mpr filled]
  rfl

end Geometry

/-- Tracing a layout gives back the folded expression, unless a gate has no operands; then it
fails at the first such gate, whatever the names are. -/
theorem Expr.toExpr_layout {α : Type} [Coordinate α] (geometry : Geometry α) (e : Expr) :
    (e.Filled → (e.layout geometry).toExpr = .ok e.foldGates) ∧
    (¬ e.Filled → ∃ (k : Nat) (g : Gate), e.foldGates.gates[k]? = some (.gate g []) ∧
      (∀ j < k, ∀ h, e.foldGates.gates[j]? ≠ some (.gate h [])) ∧
      (e.layout geometry).toExpr = .error (.arity s!"node-{k}" (.gate g) 0)) := by
  constructor
  · intro filled
    exact geometry.toExpr_draw_of_filled (filled_foldGates.mpr filled)
  · intro unfilled
    cases first : firstVacant? 0 e.foldGates.gates with
    | none => exact absurd (filled_foldGates.mp (firstVacant?_gates.mp first)) unfilled
    | some vacant =>
      obtain ⟨number, g⟩ := vacant
      obtain ⟨k, rfl, found, before⟩ := firstVacant?_eq_some first
      refine ⟨k, g, found, before, ?_⟩
      rw [Expr.layout, geometry.toExpr_draw, first, Nat.zero_add]
      rfl

theorem Expr.toExpr_layout_under_clashing_names :
    let e := Expr.gate .or [.var "node-0", .not (.gate .and [.var "", .var "output-node"])]
    let f := Expr.gate .xor [.var "node-2", .not (.gate .or [])]
    e.Filled ∧ (e.layout (.standard : Geometry Float)).toExpr = .ok e.foldGates ∧
    ¬ f.Filled ∧ ∃ (k : Nat) (g : Gate), f.foldGates.gates[k]? = some (.gate g []) ∧
      (∀ j < k, ∀ h, f.foldGates.gates[j]? ≠ some (.gate h [])) ∧
      (f.layout (.standard : Geometry Float)).toExpr = .error (.arity s!"node-{k}" (.gate g) 0) :=
  ⟨by decide, (Expr.toExpr_layout _ _).1 (by decide), by decide, (Expr.toExpr_layout _ _).2 (by decide)⟩

/-- Folding leaves nothing that is spelled out, so it changes nothing the second time, and drawing
what a layout is traced back to gives that layout again, with its ids, its edges and its
positions. -/
theorem Expr.foldGates_settles {α : Type} [Coordinate α] (geometry : Geometry α) (e : Expr) :
    (∀ part, PartOf part e.foldGates → ¬ SpelledOut part) ∧
    e.foldGates.foldGates = e.foldGates ∧
    (e.Filled → ∃ back, (e.layout geometry).toExpr = .ok back ∧
      back.layout geometry = e.layout geometry) := by
  refine ⟨settling_foldGates.freeOf_pass e, foldGates_foldGates e, ?_⟩
  intro filled
  refine ⟨e.foldGates, geometry.toExpr_draw_of_filled (filled_foldGates.mpr filled), ?_⟩
  rw [layout, layout, foldGates_foldGates]

theorem Expr.foldGates_settles_below_a_negation :
    let e := Expr.not (.gate .or [.gate .and [.not (.var "b"), .var "a"],
      .gate .and [.var "b", .not (.var "a")]])
    let layout := e.layout (.standard : Geometry Float)
    e.foldGates = .gate .xnor [.var "a", .var "b"] ∧ e.Filled ∧
    ∃ back, layout.toExpr = .ok back ∧ back.layout .standard = layout := by
  intro e layout
  have filled : e.Filled := by decide
  exact ⟨rfl, filled, (foldGates_settles .standard e).2.2 filled⟩

end Switching
