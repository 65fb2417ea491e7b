import Switching.Circuit.Basic
import Switching.Expr.Basic

/-! What a node of a circuit depends on, and what it computes. Dependence goes
backwards over edges, from gates only. A labelling of ids by truth values is
consistent when inputs carry the values of their labels and gates the values
that their sources determine. Two circuits agree from an id when they show the
same nodes and the same wiring wherever it depends on. -/
namespace Switching.Circuit

variable {α : Type} (c : Circuit α)

/-- A source of a gate. -/
def Feeds (source id : String) : Prop :=
  ∃ n, c.node? id = some n ∧ n.kind = .gate ∧ source ∈ c.sources id

/-- The ids that the node with id `start` depends on, itself included. -/
inductive Reaches (start : String) : String → Prop
  | start : Reaches start start
  | source {id source : String} : Reaches start id → c.Feeds source id → Reaches start source

def ConsistentAt (v : String → Bool) (label : String → Bool) (n : Node α) : Prop :=
  match n.kind with
  | .input => label n.id = Expr.nameValue v n.label
  | .gate => ∀ k, Component.ofLabel? n.label = some k →
      label n.id = k.eval ((c.sources n.id).map label)
  | .output => True

/-- Only the first node with an id has to agree with the label of that id. -/
def Consistent (v : String → Bool) (label : String → Bool) : Prop :=
  ∀ id n, c.node? id = some n → c.ConsistentAt v label n

/-- Consistency at the ids that `start` depends on, whatever else the circuit holds. -/
def ConsistentFrom (start : String) (v : String → Bool) (label : String → Bool) : Prop :=
  ∀ id n, c.Reaches start id → c.node? id = some n → c.ConsistentAt v label n

/-- Kind and label of the first node with an id. -/
def role? (id : String) : Option (NodeKind × String) :=
  (c.node? id).map fun n => (n.kind, n.label)

/-- Wherever the start depends on in the first circuit, the second shows a node of the same kind and
label or shows none either, and gates have the same sources in the same order. -/
structure AgreesFrom {β : Type} (d : Circuit β) (start : String) : Prop where
  roles : ∀ id, c.Reaches start id → c.role? id = d.role? id
  sources : ∀ id n, c.Reaches start id → c.node? id = some n → n.kind = .gate →
    c.sources id = d.sources id

variable {c}

theorem Consistent.from {v label : String → Bool} (consistent : c.Consistent v label)
    (start : String) : c.ConsistentFrom start v label :=
  fun id n _ found => consistent id n found

theorem Reaches.trans {a b d : String} (first : c.Reaches a b) (second : c.Reaches b d) :
    c.Reaches a d := by
  induction second with
  | start => exact first
  | source _ feeds ih => exact .source ih feeds

theorem ConsistentFrom.of_reaches {v label : String → Bool} {start id : String}
    (consistent : c.ConsistentFrom start v label) (reaches : c.Reaches start id) :
    c.ConsistentFrom id v label :=
  fun x n further found => consistent x n (reaches.trans further) found

theorem AgreesFrom.of_reaches {β : Type} {d : Circuit β} {start id : String}
    (agrees : c.AgreesFrom d start) (reaches : c.Reaches start id) : c.AgreesFrom d id where
  roles x further := agrees.roles x (reaches.trans further)
  sources x n further := agrees.sources x n (reaches.trans further)

end Switching.Circuit
