import Mathlib.Data.List.Perm.Basic
import Switching.Circuit.Layout
import Switching.Expr.Parts

/-! What a drawing holds. Gates are numbered in the order of `Expr.gates`, so
the nodes and edges drawn for an expression are given by that list and the
first number, whatever the geometry. Nodes and edges are listed after those of
the operands, so each list is known up to order, and the sources of a gate are
known in order. Node ids of the three kinds never clash. -/
namespace Switching.Geometry

open Switching.Expr

theorem toList_gateId (number : Nat) :
    (gateId number).toList = ['n', 'o', 'd', 'e', '-'] ++ Nat.toDigits 10 number := by
  simp only [gateId, String.toList_append, Nat.toList_repr, toString]
  rfl

theorem toDigits_injective {a b : Nat} (same : Nat.toDigits 10 a = Nat.toDigits 10 b) : a = b := by
  have values := congrArg (Nat.ofDigitChars 10 · 0) same
  simpa only [Nat.ofDigitChars_ten_toDigits] using values

theorem gateId_injective {a b : Nat} (same : gateId a = gateId b) : a = b := by
  have digits := congrArg String.toList same
  rw [toList_gateId, toList_gateId, List.append_right_inj] at digits
  exact toDigits_injective digits

theorem toList_inputId (name : String) :
    (Node.inputId name).toList = ['i', 'n', 'p', 'u', 't', '-'] ++ name.toList := by
  simp [Node.inputId, String.toList_append]

theorem inputId_injective {a b : String} (same : Node.inputId a = Node.inputId b) : a = b := by
  have letters := congrArg String.toList same
  rw [toList_inputId, toList_inputId, List.append_right_inj] at letters
  exact String.toList_injective letters

theorem inputId_ne_gateId (name : String) (number : Nat) : Node.inputId name ≠ gateId number := by
  intro same
  have letters := congrArg String.toList same
  rw [toList_inputId, toList_gateId] at letters
  simp at letters

theorem outputId_ne_gateId (number : Nat) : outputId ≠ gateId number := by
  intro same
  have letters := congrArg String.toList same
  rw [toList_gateId] at letters
  simp [outputId] at letters

theorem outputId_ne_inputId (name : String) : outputId ≠ Node.inputId name := by
  intro same
  have letters := congrArg String.toList same
  rw [toList_inputId] at letters
  simp [outputId] at letters

/-- The id of the topmost node of an expression whose first gate has a number. -/
def rootId (next : Nat) : Expr → String
  | .var name => Node.inputId name
  | _ => gateId next

@[simp] theorem rootId_not (next : Nat) (e : Expr) : rootId next (.not e) = gateId next := rfl

@[simp] theorem rootId_gate (next : Nat) (g : Gate) (es : List Expr) :
    rootId next (.gate g es) = gateId next := rfl

/-- The topmost ids of expressions that are drawn one after the other. -/
def rootIds (next : Nat) : List Expr → List String
  | [] => []
  | e :: es => rootId next e :: rootIds (next + e.gates.length) es

/-- Id, kind and label of the nodes of consecutively numbered gates. -/
def numbered (next : Nat) : List Expr → List (String × NodeKind × String)
  | [] => []
  | part :: rest => (gateId next, .gate, part.kindName) :: numbered (next + 1) rest

/-- What drives the gate with a number, among consecutively numbered gates. -/
def wiring (number next : Nat) : List Expr → List String
  | [] => []
  | part :: rest =>
    if number = next then rootIds (next + 1) part.operands else wiring number (next + 1) rest

/-- The edges into a gate from its operands, in order. -/
def operandEdges (gate : String) (operands : List String) : List Edge :=
  operands.mapIdx fun place operand => operandEdge gate operand place

/-- The edges into consecutively numbered gates. -/
def wires (next : Nat) : List Expr → List Edge
  | [] => []
  | part :: rest =>
    operandEdges (gateId next) (rootIds (next + 1) part.operands) ++ wires (next + 1) rest

@[simp] theorem length_rootIds (next : Nat) (es : List Expr) :
    (rootIds next es).length = es.length := by
  induction es generalizing next with
  | nil => rfl
  | cons e es ih => rw [rootIds, List.length_cons, ih, List.length_cons]

theorem rootIds_append (next : Nat) (es fs : List Expr) :
    rootIds next (es ++ fs) = rootIds next es ++ rootIds (next + (es.flatMap gates).length) fs := by
  induction es generalizing next with
  | nil => rfl
  | cons e es ih =>
    rw [List.cons_append, rootIds, ih, rootIds, List.flatMap_cons, List.length_append, Nat.add_assoc,
      List.cons_append]

theorem numbered_append (next : Nat) (xs ys : List Expr) :
    numbered next (xs ++ ys) = numbered next xs ++ numbered (next + xs.length) ys := by
  induction xs generalizing next with
  | nil => rfl
  | cons part xs ih =>
    rw [List.cons_append, numbered, ih, numbered, List.length_cons, List.cons_append,
      Nat.add_assoc, Nat.add_comm 1]

theorem mem_numbered {first : Nat} {parts : List Expr} {entry : String × NodeKind × String} :
    entry ∈ numbered first parts ↔
      ∃ k part, parts[k]? = some part ∧ entry = (gateId (first + k), .gate, part.kindName) := by
  induction parts generalizing first with
  | nil => simp [numbered]
  | cons part rest ih =>
    rw [numbered, List.mem_cons, ih]
    constructor
    · rintro (rfl | ⟨k, later, found, rfl⟩)
      · exact ⟨0, part, rfl, rfl⟩
      · exact ⟨k + 1, later, found, by rw [Nat.add_right_comm, Nat.add_assoc]⟩
    · rintro ⟨k, later, found, rfl⟩
      cases k with
      | zero =>
        obtain rfl := Option.some.inj found
        exact .inl rfl
      | succ k => exact .inr ⟨k, later, found, by rw [Nat.add_right_comm, Nat.add_assoc]⟩

theorem wiring_of_lt {number next : Nat} (below : number < next) (parts : List Expr) :
    wiring number next parts = [] := by
  induction parts generalizing next with
  | nil => rfl
  | cons part rest ih => rw [wiring, if_neg (by omega), ih (by omega)]

theorem wiring_append (number next : Nat) (xs ys : List Expr) :
    wiring number next (xs ++ ys) =
      wiring number next xs ++ wiring number (next + xs.length) ys := by
  induction xs generalizing next with
  | nil => rfl
  | cons part xs ih =>
    rw [List.cons_append, wiring, wiring, ih, List.length_cons]
    by_cases here : number = next
    · rw [if_pos here, if_pos here, wiring_of_lt (by omega), List.append_nil]
    · rw [if_neg here, if_neg here, Nat.add_assoc, Nat.add_comm 1]

theorem wiring_getElem {first k : Nat} {parts : List Expr} {part : Expr}
    (found : parts[k]? = some part) :
    wiring (first + k) first parts = rootIds (first + k + 1) part.operands := by
  induction parts generalizing first k with
  | nil => cases found
  | cons head rest ih =>
    cases k with
    | zero =>
      obtain rfl := Option.some.inj found
      rw [wiring, if_pos (Nat.add_zero _), Nat.add_zero]
    | succ k =>
      have later : wiring (first + 1 + k) (first + 1) rest = _ := ih found
      rw [wiring, if_neg (by omega), ← Nat.add_assoc, Nat.add_right_comm]
      exact later

theorem operandEdges_concat (gate operand : String) (operands : List String) :
    operandEdges gate (operands ++ [operand]) =
      operandEdges gate operands ++ [operandEdge gate operand operands.length] :=
  List.mapIdx_concat

theorem wires_append (next : Nat) (xs ys : List Expr) :
    wires next (xs ++ ys) = wires next xs ++ wires (next + xs.length) ys := by
  induction xs generalizing next with
  | nil => rfl
  | cons part xs ih =>
    rw [List.cons_append, wires, ih, wires, List.length_cons, List.append_assoc, Nat.add_assoc,
      Nat.add_comm 1]

theorem mem_operandEdges {gate : String} {operands : List String} {edge : Edge} :
    edge ∈ operandEdges gate operands ↔
      ∃ place operand, operands[place]? = some operand ∧ edge = operandEdge gate operand place := by
  simp only [operandEdges, List.mem_mapIdx, List.getElem?_eq_some_iff]
  constructor
  · rintro ⟨place, below, rfl⟩
    exact ⟨place, operands[place], ⟨below, rfl⟩, rfl⟩
  · rintro ⟨place, operand, ⟨below, rfl⟩, rfl⟩
    exact ⟨place, below, rfl⟩

theorem exists_of_mem_wires {first : Nat} {parts : List Expr} {edge : Edge}
    (listed : edge ∈ wires first parts) :
    ∃ number operand place, first ≤ number ∧ number < first + parts.length ∧
      edge = operandEdge (gateId number) operand place := by
  induction parts generalizing first with
  | nil => cases listed
  | cons part rest ih =>
    rw [List.length_cons]
    rcases List.mem_append.mp listed with own | later
    · obtain ⟨place, operand, -, rfl⟩ := mem_operandEdges.mp own
      exact ⟨first, operand, place, by omega, by omega, rfl⟩
    · obtain ⟨number, operand, place, above, below, rfl⟩ := ih later
      exact ⟨number, operand, place, by omega, by omega, rfl⟩

variable {α : Type}

/-- The sources of the edges into an id. -/
def sourcesInto (edges : List Edge) (id : String) : List String :=
  (edges.filter (·.target = id)).map Edge.source

theorem sourcesInto_append (edges more : List Edge) (id : String) :
    sourcesInto (edges ++ more) id = sourcesInto edges id ++ sourcesInto more id := by
  simp [sourcesInto]

theorem sourcesInto_singleton (edge : Edge) (id : String) :
    sourcesInto [edge] id = if edge.target = id then [edge.source] else [] := by
  by_cases into : edge.target = id <;> simp [sourcesInto, into]

def summary (n : Node α) : String × NodeKind × String := (n.id, n.kind, n.label)

/-- What is drawn for an expression whose first gate has a number. -/
structure Draws (p : Placed α) (first : Nat) (e : Expr) : Prop where
  root : p.root = rootId first e
  next : p.next = first + e.gates.length
  nodes : (p.gates.map summary).Perm (numbered first e.gates)
  edges : p.edges.Perm (wires first e.gates)
  sources : ∀ number, sourcesInto p.edges (gateId number) = wiring number first e.gates

/-- What is drawn for the first operands of gate `own`, numbered from the gate after it. -/
structure Stacks (s : Stack α) (own : Nat) (es : List Expr) : Prop where
  next : s.next = own + 1 + (es.flatMap gates).length
  count : s.count = es.length
  nodes : (s.gates.map summary).Perm (numbered (own + 1) (es.flatMap gates))
  edges : s.edges.Perm
    (operandEdges (gateId own) (rootIds (own + 1) es) ++ wires (own + 1) (es.flatMap gates))
  sources : ∀ number, sourcesInto s.edges (gateId number) =
    if number = own then rootIds (own + 1) es else wiring number (own + 1) (es.flatMap gates)

/-- A circuit holds inputs for names, and consecutively numbered gates with what drives them. -/
structure Shows (c : Circuit α) (first : Nat) (names : List String) (parts : List Expr) : Prop where
  inputs : ∀ name ∈ names, ∃ n, c.node? (Node.inputId name) = some n ∧
    n.kind = .input ∧ n.label = name
  gates : ∀ k part, parts[k]? = some part → ∃ n, c.node? (gateId (first + k)) = some n ∧
    n.kind = .gate ∧ n.label = part.kindName
  sources : ∀ k part, parts[k]? = some part →
    c.sources (gateId (first + k)) = rootIds (first + k + 1) part.operands

/-- A node that all nodes with its id agree with is found by that id. -/
theorem find_node {c : Circuit α} {id label : String} {kind : NodeKind}
    (listed : ∃ n ∈ c.nodes, summary n = (id, kind, label))
    (agree : ∀ n ∈ c.nodes, n.id = id → n.kind = kind ∧ n.label = label) :
    ∃ n, c.node? id = some n ∧ n.kind = kind ∧ n.label = label := by
  obtain ⟨n, member, same⟩ := listed
  have named : n.id = id := congrArg Prod.fst same
  have found : (c.node? id).isSome := by
    rw [Circuit.node?, List.find?_isSome]
    exact ⟨n, member, by simpa using named⟩
  obtain ⟨m, first⟩ := Option.isSome_iff_exists.mp found
  exact ⟨m, first, agree m (List.mem_of_find?_eq_some first) (by simpa using List.find?_some first)⟩

variable [Coordinate α]

theorem stacks_start (y : α) (own : Nat) : Stacks (startStack y (own + 1)) own [] where
  next := rfl
  count := rfl
  nodes := .refl _
  edges := .refl _
  sources number := by
    by_cases same : number = own <;> simp [same, startStack, sourcesInto, rootIds, wiring]

theorem stacks_push (geometry : Geometry α) {s : Stack α} {p : Placed α} {own : Nat}
    {es : List Expr} {e : Expr} (stacked : Stacks s own es) (draws : Draws p s.next e) :
    Stacks (geometry.push (gateId own) s p) own (es ++ [e]) where
  next := by
    have total := draws.next
    rw [stacked.next] at total
    simp only [push, total, List.flatMap_append, List.flatMap_singleton, List.length_append]
    omega
  count := by rw [push, stacked.count, List.length_append, List.length_singleton]
  nodes := by
    have both := stacked.nodes.append draws.nodes
    rw [stacked.next, ← numbered_append] at both
    simpa [push] using both
  edges := by
    have operand : operandEdges (gateId own) (rootIds (own + 1) (es ++ [e])) =
        operandEdges (gateId own) (rootIds (own + 1) es) ++
          [operandEdge (gateId own) p.root s.count] := by
      rw [rootIds_append, rootIds, rootIds, ← stacked.next, ← draws.root, operandEdges_concat,
        length_rootIds, stacked.count]
    have both := stacked.edges.append draws.edges
    rw [stacked.next, List.append_assoc, ← wires_append] at both
    rw [operand, List.flatMap_append, List.flatMap_singleton, List.append_assoc]
    -- the new edge is drawn after the edges inside its operand, and is listed before them
    exact ((both.append_right _).trans (.of_eq (List.append_assoc ..))).trans
      (List.perm_append_comm.append_left _)
  sources number := by
    have operand : sourcesInto [operandEdge (gateId own) p.root s.count] (gateId number) =
        if gateId own = gateId number then [p.root] else [] := sourcesInto_singleton _ _
    rw [push, sourcesInto_append, sourcesInto_append, stacked.sources, draws.sources, operand,
      draws.root, stacked.next]
    by_cases same : number = own
    · subst number
      rw [if_pos rfl, if_pos rfl, if_pos rfl, wiring_of_lt (by omega), rootIds_append]
      simp [rootIds]
    · have other : ¬ gateId own = gateId number := fun equal => same (gateId_injective equal).symm
      rw [if_neg same, if_neg same, if_neg other, List.append_nil, ← wiring_append]
      simp

theorem draws_close (geometry : Geometry α) {s : Stack α} {own : Nat} {part : Expr}
    {component : Component} (x y : α) (stacked : Stacks s own part.operands)
    (named : part.component? = some component) :
    Draws (geometry.close (gateId own) component x y s) own part where
  root := by
    cases part with
    | var name => cases named
    | not e => rfl
    | gate g es => rfl
  next := by
    have total := stacked.next
    rw [gates_of_component named, List.length_cons]
    simp only [close]
    omega
  nodes := by
    have self : part.kindName = component.name := by simp [kindName, named]
    rw [gates_of_component named, numbered, self]
    simpa [close, summary, Node.gate] using
      (stacked.nodes.append_right [(gateId own, NodeKind.gate, component.name)]).trans
        (List.perm_append_singleton _ _)
  edges := by
    rw [gates_of_component named, wires]
    exact stacked.edges
  sources number := by
    rw [gates_of_component named, wiring]
    exact stacked.sources number

theorem stacks_placeAll (geometry : Geometry α) {own : Nat} {es : List Expr}
    (each : ∀ e ∈ es, ∀ x y next, Draws (geometry.place x y next e) next e) (x : α)
    {s : Stack α} {before : List Expr} (stacked : Stacks s own before) :
    Stacks (geometry.placeAll (gateId own) x s es) own (before ++ es) := by
  induction es generalizing s before with
  | nil => simpa [placeAll] using stacked
  | cons e es ih =>
    have pushed := stacks_push geometry stacked (each e (by simp) x s.y s.next)
    have rest := ih (fun f listed => each f (by simp [listed])) pushed
    rw [List.append_assoc] at rest
    exact rest

theorem place_of_component (geometry : Geometry α) {part : Expr} {component : Component}
    (named : part.component? = some component) (x y : α) (next : Nat) :
    geometry.place x y next part = geometry.close (gateId next) component x y
      (geometry.placeAll (gateId next) (x - geometry.horizontalSpacing) (startStack y (next + 1))
        part.operands) := by
  cases part with
  | var name => cases named
  | not e =>
    cases named
    rfl
  | gate g es =>
    cases named
    rfl

theorem draws_place (geometry : Geometry α) (e : Expr) :
    ∀ x y next, Draws (geometry.place x y next e) next e := by
  induction e using induction_on_operands with
  | var name =>
    intro x y next
    exact ⟨rfl, rfl, .refl _, .refl _, fun _ => rfl⟩
  | component part component named ih =>
    intro x y next
    have placed := stacks_placeAll geometry ih (x - geometry.horizontalSpacing)
      (stacks_start y next)
    rw [place_of_component geometry named]
    exact draws_close geometry x y placed named

theorem summary_inputsAt (geometry : Geometry α) (names : List String) :
    (geometry.inputsAt names).map summary =
      names.map fun name => (Node.inputId name, .input, name) := by
  apply List.ext_getElem?
  intro i
  simp only [inputsAt, List.getElem?_map, List.getElem?_mapIdx, Option.map_map]
  rfl

/-- The nodes of a drawing, whatever their positions. -/
theorem summary_draw (geometry : Geometry α) (e : Expr) :
    ((geometry.draw e).nodes.map summary).Perm
      (e.names.map (fun name => (Node.inputId name, .input, name)) ++ numbered 0 e.gates ++
        [(outputId, .output, "OUT")]) := by
  rw [draw, List.map_append, List.map_append, summary_inputsAt]
  exact ((draws_place geometry e _ _ 0).nodes.append_left _).append_right _

theorem mem_draw {geometry : Geometry α} {e : Expr} {entry : String × NodeKind × String} :
    (∃ n ∈ (geometry.draw e).nodes, summary n = entry) ↔
      (∃ name ∈ e.leaves, entry = (Node.inputId name, .input, name)) ∨
      (∃ k part, e.gates[k]? = some part ∧ entry = (gateId k, .gate, part.kindName)) ∨
      entry = (outputId, .output, "OUT") := by
  rw [← List.mem_map, (summary_draw geometry e).mem_iff, List.mem_append, List.mem_append,
    List.mem_map, mem_numbered, List.mem_singleton, or_assoc]
  simp only [mem_names, Nat.zero_add, eq_comm]

theorem sources_draw (geometry : Geometry α) (e : Expr) (number : Nat) :
    (geometry.draw e).sources (gateId number) = wiring number 0 e.gates := by
  have drawn := draws_place geometry e (Coordinate.ofNat e.depth * geometry.horizontalSpacing)
    geometry.top 0
  rw [← drawn.sources number]
  simp [draw, Circuit.sources, Circuit.incoming, sourcesInto, outputId_ne_gateId]

theorem sources_output (geometry : Geometry α) (e : Expr) :
    (geometry.draw e).sources outputId = [rootId 0 e] := by
  have drawn := draws_place geometry e (Coordinate.ofNat e.depth * geometry.horizontalSpacing)
    geometry.top 0
  have apart : ∀ edge ∈ (geometry.place (Coordinate.ofNat e.depth * geometry.horizontalSpacing)
      geometry.top 0 e).edges, ¬ edge.target = outputId := by
    intro edge member into
    obtain ⟨number, operand, place, -, -, rfl⟩ := exists_of_mem_wires (drawn.edges.subset member)
    exact outputId_ne_gateId number into.symm
  rw [← drawn.root]
  simpa [draw, Circuit.sources, Circuit.incoming] using apart

theorem shows_draw (geometry : Geometry α) (e : Expr) :
    Shows (geometry.draw e) 0 e.leaves e.gates where
  inputs name leaf := by
    refine find_node (mem_draw.mpr (.inl ⟨name, leaf, rfl⟩)) ?_
    intro n member named
    obtain ⟨other, _, same⟩ | ⟨k, part, _, same⟩ | same := mem_draw.mp ⟨n, member, rfl⟩
    all_goals simp only [summary, Prod.mk.injEq, named] at same
    · exact ⟨same.2.1, by rw [same.2.2, ← inputId_injective same.1]⟩
    · exact absurd same.1 (inputId_ne_gateId name k)
    · exact absurd same.1.symm (outputId_ne_inputId name)
  gates k part found := by
    rw [Nat.zero_add]
    refine find_node (mem_draw.mpr (.inr (.inl ⟨k, part, found, rfl⟩))) ?_
    intro n member named
    obtain ⟨name, _, same⟩ | ⟨j, other, listed, same⟩ | same := mem_draw.mp ⟨n, member, rfl⟩
    all_goals simp only [summary, Prod.mk.injEq, named] at same
    · exact absurd same.1.symm (inputId_ne_gateId name k)
    · obtain rfl := gateId_injective same.1
      obtain rfl := Option.some.inj (found.symm.trans listed)
      exact same.2
    · exact absurd same.1.symm (outputId_ne_gateId k)
  sources k part found := by
    have wired : wiring (0 + k) 0 e.gates = _ := wiring_getElem found
    rw [Nat.zero_add] at wired ⊢
    rw [sources_draw, wired]

end Switching.Geometry
