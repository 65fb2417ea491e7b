import Switching.Circuit.Basic
import Switching.Expr.Basic

/-! The expression that a circuit computes, traced backwards from what drives
its output. Every edge into a gate gives one operand and an input gives its
label as a variable. The gates passed on the way from the output are never
entered again, so tracing ends on every circuit. -/
namespace Switching

inductive TraceError where
  | noOutput
  | nodeNotFound (id : String)
  | unknownGate (id label : String)
  | arity (id : String) (c : Component) (inputs : Nat)
  | outputAsSource (id : String)
  | cycle (id : String)
deriving DecidableEq, Repr

def TraceError.message : TraceError → String
  | .noOutput => "No output node found"
  | .nodeNotFound id => s!"Node {id} not found"
  | .unknownGate id label => s!"Node {id} has unknown gate label '{label}'"
  | .arity id .inverter inputs => s!"NOT gate must have exactly one input (node {id} has {inputs})"
  | .arity id (.gate g) inputs =>
    s!"{g.name} gate must have at least one input (node {id} has {inputs})"
  | .outputAsSource id => s!"Output node {id} cannot drive another node"
  | .cycle id => s!"Circuit contains a cycle through node {id}"

namespace Circuit

variable {α : Type}

/-- The ids of gates that a path has not passed. -/
def gatesOff (c : Circuit α) (path : List String) : List String :=
  (c.gates.map Node.id).filter (· ∉ path)

theorem length_gatesOff_cons {c : Circuit α} {path : List String} {id : String} {n : Node α}
    (found : c.node? id = some n) (kind : n.kind = .gate) (fresh : id ∉ path) :
    (c.gatesOff (id :: path)).length < (c.gatesOff path).length := by
  have named : n.id = id := by simpa using List.find?_some found
  have listed : id ∈ c.gates.map Node.id := List.mem_map.2
    ⟨n, List.mem_filter.2 ⟨List.mem_of_find?_eq_some found, by simp [kind]⟩, named⟩
  have split : c.gatesOff (id :: path) = (c.gatesOff path).filter (· ≠ id) := by
    simp [gatesOff, List.filter_filter, List.mem_cons, not_or]
  rw [split]
  exact List.length_filter_lt_length_iff_exists.2
    ⟨id, List.mem_filter.2 ⟨listed, by simpa using fresh⟩, by simp⟩

/-- The expression at a node that is reached over a path of gates. -/
def trace (c : Circuit α) (path : List String) (id : String) : Except TraceError Expr :=
  match _found : c.node? id with
  | none => .error (.nodeNotFound id)
  | some n =>
    match _kind : n.kind with
    | .input => .ok (.var n.label)
    | .output => .error (.outputAsSource id)
    | .gate =>
      match Component.ofLabel? n.label with
      | none => .error (.unknownGate id n.label)
      | some component =>
        if _fresh : id ∈ path then .error (.cycle id)
        else match component, c.sources id with
          | .inverter, [source] => (c.trace (id :: path) source).map .not
          | .gate g, source :: rest =>
            ((source :: rest).mapM (c.trace (id :: path))).map (.gate g)
          | component, sources => .error (.arity id component sources.length)
termination_by (c.gatesOff path).length
decreasing_by all_goals exact length_gatesOff_cons _found _kind _fresh

/-- Stands for whatever an unconnected output will show. -/
def placeholder : Expr := .var "?"

/-- Of several edges into the first output, the first counts. -/
def toExpr (c : Circuit α) : Except TraceError Expr :=
  match c.output? with
  | none => .error .noOutput
  | some output =>
    match c.sources output.id with
    | [] => .ok placeholder
    | source :: _ => c.trace [] source

end Circuit

end Switching
