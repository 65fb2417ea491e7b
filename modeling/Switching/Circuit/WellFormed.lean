import Switching.Circuit.Reach
import Switching.Circuit.Trace

/-! Well-formed circuits, judged over the ids that a node depends on and never
over the order in which a walk meets them, and what each error of tracing says
about such ids. -/
namespace Switching.Circuit

variable {α : Type}

/-- Whatever the start depends on is an input or a gate of a known kind with as many sources as
that kind accepts, and no gate among it depends on itself. -/
structure WellFormed (c : Circuit α) (start : String) : Prop where
  present : ∀ id, c.Reaches start id →
    ∃ n, c.node? id = some n ∧ (n.kind = .input ∨ n.kind = .gate)
  wired : ∀ id n, c.Reaches start id → c.node? id = some n → n.kind = .gate →
    ∃ k, Component.ofLabel? n.label = some k ∧ k.accepts (c.sources id).length
  acyclic : ∀ id source, c.Reaches start id → c.Feeds source id → ¬ c.Reaches source id

/-- What an error names is wrong with the circuit, at an id that the start depends on. -/
def Defect (c : Circuit α) (start : String) : TraceError → Prop
  | .noOutput => False
  | .nodeNotFound id => c.Reaches start id ∧ c.node? id = none
  | .outputAsSource id => c.Reaches start id ∧ ∃ n, c.node? id = some n ∧ n.kind = .output
  | .unknownGate id label => c.Reaches start id ∧
      ∃ n, c.node? id = some n ∧ n.kind = .gate ∧ n.label = label ∧ Component.ofLabel? label = none
  | .arity id k inputs => c.Reaches start id ∧
      ∃ n, c.node? id = some n ∧ n.kind = .gate ∧ Component.ofLabel? n.label = some k ∧
        (c.sources id).length = inputs ∧ ¬ k.accepts inputs
  | .cycle id => c.Reaches start id ∧ ∃ source, c.Feeds source id ∧ c.Reaches source id

end Switching.Circuit
