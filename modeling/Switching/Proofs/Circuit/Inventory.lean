import Mathlib.Data.List.Nodup
import Switching.Proofs.Circuit.Drawing
import Switching.Proofs.Expr.GateFolding

/-! The ids, edges and ends of a layout, for every expression and every spelling of its names. The
id of a node is told by its kind and its name or number. The id of an edge is told by the number of
the gate it enters and its place there, whatever text the operand puts between the two numbers. -/
namespace Switching

namespace Geometry

open Switching.Expr

theorem dash_notMem_toDigits (number : Nat) : '-' ∉ Nat.toDigits 10 number := by
  intro listed
  have digit := Nat.isDigit_of_mem_toDigits (by decide) (by decide) listed
  cases digit

/-- What stands before the first dash of a text is told by the text. -/
theorem eq_of_append_dash {xs ys rest others : List Char} (noDash : '-' ∉ xs) (noDash' : '-' ∉ ys)
    (same : xs ++ '-' :: rest = ys ++ '-' :: others) : xs = ys := by
  have upto : ∀ {zs more : List Char}, '-' ∉ zs → (zs ++ '-' :: more).takeWhile (· ≠ '-') = zs := by
    intro zs more absent
    rw [List.takeWhile_append_of_pos fun c listed => by
      simpa using fun dash : c = '-' => absent (dash ▸ listed)]
    simp
  rw [← upto noDash, same, upto noDash']

theorem toList_operandEdge_id (number place : Nat) (operand : String) :
    (operandEdge (gateId number) operand place).id.toList =
      ['e', 'd', 'g', 'e', '-', 'n', 'o', 'd', 'e', '-'] ++ (Nat.toDigits 10 number ++
        '-' :: (operand.toList ++ '-' :: Nat.toDigits 10 place)) := by
  simp [operandEdge, gateId, String.toList_append, toString]

/-- The operand may hold dashes and digits of its own, so its end is found from the right. -/
theorem operandEdge_id_inj {number number' place place' : Nat} {operand operand' : String}
    (same : (operandEdge (gateId number) operand place).id =
      (operandEdge (gateId number') operand' place').id) : number = number' ∧ place = place' := by
  have letters := congrArg String.toList same
  rw [toList_operandEdge_id, toList_operandEdge_id, List.append_right_inj] at letters
  have first := eq_of_append_dash (dash_notMem_toDigits _) (dash_notMem_toDigits _) letters
  rw [first, List.append_right_inj, List.cons.injEq] at letters
  -- From here on the operand's text stands before the last dash, which is the first one backwards.
  have backwards := congrArg List.reverse letters.2
  simp only [List.reverse_append, List.reverse_cons, List.append_assoc, List.singleton_append]
    at backwards
  have last := eq_of_append_dash (by simpa using dash_notMem_toDigits place)
    (by simpa using dash_notMem_toDigits place') backwards
  exact ⟨toDigits_injective first, toDigits_injective (List.reverse_inj.mp last)⟩

def outputEdge (root : String) : Edge := ⟨s!"edge-{outputId}-{root}", root, outputId, true⟩

theorem outputEdge_id_ne (root operand : String) (number place : Nat) :
    (outputEdge root).id ≠ (operandEdge (gateId number) operand place).id := by
  intro same
  have letters := congrArg String.toList same
  rw [toList_operandEdge_id] at letters
  simp [outputEdge, outputId, String.toList_append, toString] at letters

theorem nodup_operandEdges (number : Nat) (operands : List String) :
    ((operandEdges (gateId number) operands).map Edge.id).Nodup := by
  rw [List.Nodup, List.pairwise_iff_getElem]
  intro i j below below' before same
  simp only [operandEdges, List.getElem_map, List.getElem_mapIdx] at same
  have places := (operandEdge_id_inj same).2
  omega

theorem nodup_wires (first : Nat) (parts : List Expr) :
    ((wires first parts).map Edge.id).Nodup := by
  induction parts generalizing first with
  | nil => exact .nil
  | cons part rest ih =>
    rw [wires, List.map_append, List.nodup_append]
    refine ⟨nodup_operandEdges _ _, ih _, ?_⟩
    intro id own other later same
    obtain ⟨edge, listed, rfl⟩ := List.mem_map.mp own
    obtain ⟨edge', listed', rfl⟩ := List.mem_map.mp later
    obtain ⟨place, operand, -, rfl⟩ := mem_operandEdges.mp listed
    obtain ⟨number, operand', place', above, -, rfl⟩ := exists_of_mem_wires listed'
    have numbers := (operandEdge_id_inj same).1
    omega

theorem length_wires_flatMap {es : List Expr}
    (each : ∀ e ∈ es, ∀ first, (wires first e.gates).length + 1 = e.size) (first : Nat) :
    es.length + (wires first (es.flatMap gates)).length = (es.map size).foldr (· + ·) 0 := by
  induction es generalizing first with
  | nil => rfl
  | cons e es ih =>
    have head := each e List.mem_cons_self first
    have tail := ih (fun f listed => each f (List.mem_cons_of_mem _ listed))
      (first + e.gates.length)
    rw [List.flatMap_cons, wires_append, List.length_append, List.length_cons, List.map_cons,
      List.foldr_cons]
    omega

/-- Every part of an expression but the whole is an operand of one gate at one place. -/
theorem length_wires_gates (e : Expr) : ∀ first, (wires first e.gates).length + 1 = e.size := by
  induction e using induction_on_operands with
  | var name => exact fun _ => rfl
  | component e c named ih =>
    intro first
    have inner := length_wires_flatMap ih (first + 1)
    rw [gates_of_component named, size_of_component named, wires, List.length_append, operandEdges,
      List.length_mapIdx, length_rootIds, inner]

/-- The ids drawn for names and for the gates numbered from a first to before a last. -/
def Drawn (names : List String) (first last : Nat) (id : String) : Prop :=
  (∃ name ∈ names, id = Node.inputId name) ∨
    ∃ number, first ≤ number ∧ number < last ∧ id = gateId number

theorem Drawn.mono {names more : List String} {first last first' last' : Nat} {id : String}
    (drawn : Drawn names first last id) (sub : names ⊆ more) (low : first' ≤ first)
    (high : last ≤ last') : Drawn more first' last' id := by
  rcases drawn with ⟨name, leaf, rfl⟩ | ⟨number, above, below, rfl⟩
  · exact .inl ⟨name, sub leaf, rfl⟩
  · exact .inr ⟨number, by omega, by omega, rfl⟩

theorem drawn_rootId (first : Nat) (e : Expr) :
    Drawn e.leaves first (first + e.gates.length) (rootId first e) := by
  cases e with
  | var name => exact .inl ⟨name, List.mem_singleton_self _, rfl⟩
  | not e => exact .inr ⟨first, Nat.le_refl _, by simp [gates], rfl⟩
  | gate g es => exact .inr ⟨first, Nat.le_refl _, by simp [gates], rfl⟩

theorem drawn_of_mem_rootIds {es : List Expr} {first : Nat} {id : String}
    (listed : id ∈ rootIds first es) :
    Drawn (es.flatMap leaves) first (first + (es.flatMap gates).length) id := by
  induction es generalizing first with
  | nil => cases listed
  | cons e es ih =>
    rw [List.flatMap_cons, List.flatMap_cons, List.length_append]
    rcases List.mem_cons.mp listed with rfl | later
    · exact (drawn_rootId first e).mono (List.subset_append_left _ _) (by omega) (by omega)
    · exact (ih later).mono (List.subset_append_right _ _) (by omega) (by omega)

theorem drawn_source_flatMap {es : List Expr}
    (each : ∀ e ∈ es, ∀ first, ∀ edge ∈ wires first e.gates,
      Drawn e.leaves first (first + e.gates.length) edge.source) (first : Nat) :
    ∀ edge ∈ wires first (es.flatMap gates),
      Drawn (es.flatMap leaves) first (first + (es.flatMap gates).length) edge.source := by
  induction es generalizing first with
  | nil => nofun
  | cons e es ih =>
    intro edge listed
    rw [List.flatMap_cons, wires_append] at listed
    rw [List.flatMap_cons, List.flatMap_cons, List.length_append]
    rcases List.mem_append.mp listed with within | later
    · exact (each e List.mem_cons_self first edge within).mono (List.subset_append_left _ _)
        (by omega) (by omega)
    · have rest := ih (fun f listed => each f (List.mem_cons_of_mem _ listed)) _ edge later
      exact rest.mono (List.subset_append_right _ _) (by omega) (by omega)

theorem drawn_source (e : Expr) : ∀ first, ∀ edge ∈ wires first e.gates,
    Drawn e.leaves first (first + e.gates.length) edge.source := by
  induction e using induction_on_operands with
  | var name => exact fun _ => nofun
  | component e c named ih =>
    intro first edge listed
    rw [gates_of_component named] at listed ⊢
    rw [leaves_of_component named, List.length_cons]
    rcases List.mem_append.mp listed with own | inner
    · obtain ⟨place, operand, found, rfl⟩ := mem_operandEdges.mp own
      exact (drawn_of_mem_rootIds (List.mem_of_getElem? found)).mono (List.Subset.refl _)
        (by omega) (by omega)
    · exact (drawn_source_flatMap ih _ edge inner).mono (List.Subset.refl _) (by omega) (by omega)

theorem numbered_eq_mapIdx (first : Nat) (parts : List Expr) :
    numbered first parts =
      parts.mapIdx fun k part => (gateId (first + k), .gate, part.kindName) := by
  induction parts generalizing first with
  | nil => rfl
  | cons part rest ih =>
    rw [numbered, ih, List.mapIdx_cons]
    simp only [Nat.add_zero, Nat.add_assoc, Nat.add_comm 1]

theorem nodup_numbered (first : Nat) (parts : List Expr) :
    ((numbered first parts).map Prod.fst).Nodup := by
  rw [numbered_eq_mapIdx, List.Nodup, List.pairwise_iff_getElem]
  intro i j below below' before same
  simp only [List.getElem_map, List.getElem_mapIdx] at same
  have numbers := gateId_injective same
  omega

theorem exists_of_mem_numbered {first : Nat} {parts : List Expr} {id : String}
    (listed : id ∈ (numbered first parts).map Prod.fst) : ∃ number, id = gateId number := by
  obtain ⟨entry, found, rfl⟩ := List.mem_map.mp listed
  obtain ⟨k, part, -, rfl⟩ := mem_numbered.mp found
  exact ⟨first + k, rfl⟩

section

variable {α : Type}

theorem exists_node_of_summary {nodes : List (Node α)} {id label : String} {kind : NodeKind}
    (listed : ∃ n ∈ nodes, summary n = (id, kind, label)) : ∃ n ∈ nodes, n.id = id :=
  listed.imp fun _ found => ⟨found.1, congrArg Prod.fst found.2⟩

theorem filter_kind {nodes : List (Node α)} {own : NodeKind} (each : ∀ n ∈ nodes, n.kind = own)
    (kind : NodeKind) : nodes.filter (·.kind = kind) = if own = kind then nodes else [] := by
  split
  · rename_i same
    exact List.filter_eq_self.mpr fun n listed => by simpa [same] using each n listed
  · rename_i other
    exact List.filter_eq_nil_iff.mpr fun n listed => by simpa [each n listed] using other

/-- The nodes of each kind, where inputs, gates and the output are listed apart. -/
theorem ofKind_of_columns {c : Circuit α} {inputs gates : List (Node α)} {output : Node α}
    (columns : c.nodes = inputs ++ gates ++ [output]) (areInputs : ∀ n ∈ inputs, n.kind = .input)
    (areGates : ∀ n ∈ gates, n.kind = .gate) (isOutput : output.kind = .output) :
    c.inputs = inputs ∧ c.gates = gates ∧ c.outputs = [output] := by
  have split : ∀ kind, c.ofKind kind = (if .input = kind then inputs else []) ++
      (if .gate = kind then gates else []) ++ if .output = kind then [output] else [] := by
    intro kind
    rw [Circuit.ofKind, columns, List.filter_append, List.filter_append, filter_kind areInputs,
      filter_kind areGates, filter_kind (List.forall_mem_singleton.mpr isOutput)]
  exact ⟨(split .input).trans (by simp), (split .gate).trans (by simp),
    (split .output).trans (by simp)⟩

theorem kind_of_mem_gates {p : Placed α} {first : Nat} {e : Expr} (draws : Draws p first e) :
    ∀ n ∈ p.gates, n.kind = .gate := by
  intro n listed
  obtain ⟨k, part, -, same⟩ := mem_numbered.mp (draws.nodes.subset (List.mem_map_of_mem listed))
  exact congrArg (·.2.1) same

end

section

variable {α : Type} [Coordinate α] (geometry : Geometry α) (e : Expr)

theorem columns_draw :
    (geometry.draw e).inputs.map summary =
      e.names.map (fun name => (Node.inputId name, .input, name)) ∧
    ((geometry.draw e).gates.map summary).Perm (numbered 0 e.gates) ∧
    (geometry.draw e).outputs.map summary = [(outputId, .output, "OUT")] := by
  have draws := draws_place geometry e (Coordinate.ofNat e.depth * geometry.horizontalSpacing)
    geometry.top 0
  have areInputs : ∀ n ∈ geometry.inputsAt e.names, n.kind = .input := by
    intro n listed
    obtain ⟨place, below, rfl⟩ := List.mem_mapIdx.mp listed
    rfl
  obtain ⟨inputs, gates, outputs⟩ := ofKind_of_columns
    (show (geometry.draw e).nodes = geometry.inputsAt e.names ++ _ ++ [_] from rfl)
    areInputs (kind_of_mem_gates draws) rfl
  rw [inputs, gates, outputs]
  exact ⟨summary_inputsAt geometry e.names, draws.nodes, rfl⟩

/-- The label of a drawn gate is read back as the component of the part that it is drawn for. -/
theorem exists_gate_of_getElem? {number : Nat} {part : Expr}
    (found : e.gates[number]? = some part) :
    ∃ k, part.component? = some k ∧
      ∃ n ∈ (geometry.draw e).gates, n.id = gateId number ∧ n.component? = some k := by
  obtain ⟨k, named⟩ := exists_component_of_mem_gates (List.mem_of_getElem? found)
  refine ⟨k, named, ?_⟩
  have listed : (gateId number, NodeKind.gate, part.kindName) ∈
      (geometry.draw e).gates.map summary :=
    (columns_draw geometry e).2.1.mem_iff.mpr (mem_numbered.mpr ⟨number, part, found, by simp⟩)
  obtain ⟨n, drawn, same⟩ := List.mem_map.mp listed
  obtain ⟨id, kind, label⟩ : n.id = gateId number ∧ n.kind = .gate ∧ n.label = part.kindName := by
    simpa [summary] using same
  have name : part.kindName = k.name := by
    rw [kindName, named]
    rfl
  refine ⟨n, drawn, id, ?_⟩
  rw [Node.component?, if_pos kind, label, name, Component.ofLabel?_name]

theorem edges_draw :
    (geometry.draw e).edges.Perm (wires 0 e.gates ++ [outputEdge (rootId 0 e)]) := by
  have draws := draws_place geometry e (Coordinate.ofNat e.depth * geometry.horizontalSpacing)
    geometry.top 0
  rw [draw, ← draws.root]
  exact draws.edges.append_right _

theorem nodup_node_ids : ((geometry.draw e).nodes.map Node.id).Nodup := by
  have ids : (geometry.draw e).nodes.map Node.id =
      ((geometry.draw e).nodes.map summary).map Prod.fst := by
    rw [List.map_map]
    rfl
  rw [ids, ((summary_draw geometry e).map _).nodup_iff, List.map_append, List.map_append,
    List.map_map, List.nodup_append, List.nodup_append]
  refine ⟨⟨?_, nodup_numbered 0 e.gates, ?_⟩, List.nodup_singleton _, ?_⟩
  · have names : e.names.Nodup := (Names.pairwise_ofList e.leaves).nodup
    exact names.map fun a b same => inputId_injective same
  · intro id input other gate same
    obtain ⟨name, -, rfl⟩ := List.mem_map.mp input
    obtain ⟨number, rfl⟩ := exists_of_mem_numbered gate
    exact inputId_ne_gateId name number same
  · intro id before other output same
    rw [List.mem_singleton.mp output] at same
    rcases List.mem_append.mp before with input | gate
    · obtain ⟨name, -, rfl⟩ := List.mem_map.mp input
      exact outputId_ne_inputId name same.symm
    · obtain ⟨number, rfl⟩ := exists_of_mem_numbered gate
      exact outputId_ne_gateId number same.symm

theorem nodup_edge_ids : ((geometry.draw e).edges.map Edge.id).Nodup := by
  rw [((edges_draw geometry e).map _).nodup_iff, List.map_append, List.map_singleton,
    List.nodup_append]
  refine ⟨nodup_wires 0 e.gates, List.nodup_singleton _, ?_⟩
  intro id listed other alone same
  obtain ⟨edge, wired, rfl⟩ := List.mem_map.mp listed
  obtain ⟨number, operand, place, -, -, rfl⟩ := exists_of_mem_wires wired
  rw [List.mem_singleton.mp alone] at same
  exact outputEdge_id_ne _ _ _ _ same.symm

/-- A test that only the edge into the output passes picks that edge. -/
theorem filter_edges_draw {p : Edge → Bool} (picked : p (outputEdge (rootId 0 e)))
    (passed : ∀ number operand place, ¬ p (operandEdge (gateId number) operand place)) :
    (geometry.draw e).edges.filter p = [outputEdge (rootId 0 e)] := by
  have none : (wires 0 e.gates).filter p = [] := by
    apply List.filter_eq_nil_iff.mpr
    intro edge wired
    obtain ⟨number, operand, place, -, -, rfl⟩ := exists_of_mem_wires wired
    exact passed number operand place
  have alone := (edges_draw geometry e).filter p
  rw [List.filter_append, none, List.nil_append, List.filter_singleton, picked, cond_true] at alone
  exact List.perm_singleton.mp alone

theorem exists_node_of_drawn {id : String} (drawn : Drawn e.leaves 0 e.gates.length id) :
    ∃ n ∈ (geometry.draw e).nodes, n.id = id := by
  rcases drawn with ⟨name, leaf, rfl⟩ | ⟨number, -, below, rfl⟩
  · exact exists_node_of_summary (mem_draw.mpr (.inl ⟨name, leaf, rfl⟩))
  · have found := List.getElem?_eq_getElem below
    exact exists_node_of_summary (mem_draw.mpr (.inr (.inl ⟨number, _, found, rfl⟩)))

theorem ends_draw : ∀ edge ∈ (geometry.draw e).edges,
    (∃ n ∈ (geometry.draw e).nodes, n.id = edge.source) ∧
      ∃ n ∈ (geometry.draw e).nodes, n.id = edge.target := by
  intro edge listed
  rcases List.mem_append.mp ((edges_draw geometry e).subset listed) with wired | last
  · have source := drawn_source e 0 edge wired
    obtain ⟨number, operand, place, above, below, rfl⟩ := exists_of_mem_wires wired
    rw [Nat.zero_add] at source below
    exact ⟨exists_node_of_drawn geometry e source,
      exists_node_of_drawn geometry e (.inr ⟨number, above, below, rfl⟩)⟩
  · obtain rfl := List.mem_singleton.mp last
    have source := drawn_rootId 0 e
    rw [Nat.zero_add] at source
    exact ⟨exists_node_of_drawn geometry e source,
      exists_node_of_summary (mem_draw.mpr (.inr (.inr rfl)))⟩

theorem length_edges_draw : (geometry.draw e).edges.length = e.size := by
  rw [(edges_draw geometry e).length_eq, List.length_append, List.length_singleton,
    length_wires_gates]

end

end Geometry

open Switching.Geometry in
/-- A layout has one input for each name in order, the gates of the folded expression under their
numbers, with labels that are read back as their components, and one output. No id stands twice,
every edge joins two of the nodes, the marked edge is the only one into the output, and the edges
are as many as the folded expression has parts. -/
theorem Expr.layout_inventory {α : Type} [Coordinate α] (geometry : Geometry α) (e : Expr) :
    let c := e.layout geometry
    (c.nodes.map Node.id).Nodup ∧ (c.edges.map Edge.id).Nodup ∧
    c.inputs.map summary = e.names.map (fun name => (s!"input-{name}", .input, name)) ∧
    e.names.Pairwise (· < ·) ∧ (∀ name, name ∈ e.names ↔ name ∈ e.leaves) ∧
    (c.gates.map summary).Perm
      (e.foldGates.gates.mapIdx fun j part => (s!"node-{j}", .gate, part.kindName)) ∧
    (∀ (j : Nat) part, e.foldGates.gates[j]? = some part → ∃ k, part.component? = some k ∧
      ∃ n ∈ c.gates, n.id = s!"node-{j}" ∧ n.component? = some k) ∧
    (∃ output edge, c.outputs = [output] ∧ c.edges.filter Edge.isOutput = [edge] ∧
      c.incoming output.id = [edge]) ∧
    (∀ edge ∈ c.edges, (∃ n ∈ c.nodes, n.id = edge.source) ∧ ∃ n ∈ c.nodes, n.id = edge.target) ∧
    c.edges.length = e.foldGates.size := by
  intro c
  obtain ⟨inputs, gates, outputs⟩ := geometry.columns_draw e.foldGates
  refine ⟨geometry.nodup_node_ids _, geometry.nodup_edge_ids _, ?inputs, Names.pairwise_ofList _,
    fun _ => mem_names, ?gates, fun _ _ => geometry.exists_gate_of_getElem? _, ?output,
    geometry.ends_draw _, geometry.length_edges_draw _⟩
  case inputs =>
    rw [names_foldGates] at inputs
    exact inputs
  case gates =>
    simp only [numbered_eq_mapIdx, Nat.zero_add] at gates
    exact gates
  case output =>
    obtain ⟨output, alone, same⟩ := List.map_eq_singleton_iff.mp outputs
    have named : output.id = outputId := congrArg Prod.fst same
    refine ⟨output, outputEdge (rootId 0 e.foldGates), alone, ?_, ?_⟩
    · exact geometry.filter_edges_draw _ rfl nofun
    · rw [named]
      exact geometry.filter_edges_draw _ (by simp [outputEdge]) fun number _ _ => by
        simpa [operandEdge] using (outputId_ne_gateId number).symm

end Switching
