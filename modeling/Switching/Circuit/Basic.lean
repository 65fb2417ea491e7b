import Switching.Component

/-! Circuits as lists of nodes and edges, related only by node ids. Ids may
repeat; a lookup takes the first node. The inputs of a gate are the sources of
the edges into it, in edge order. -/
namespace Switching

inductive NodeKind where
  | input | gate | output
deriving DecidableEq, Repr

structure Position (α : Type) where
  x : α
  y : α
deriving DecidableEq, Repr

/-- The label of an input is its variable, that of a gate names its component. -/
structure Node (α : Type) where
  id : String
  kind : NodeKind
  label : String
  position : Position α
deriving DecidableEq, Repr

structure Edge where
  id : String
  source : String
  target : String
  isOutput : Bool
deriving DecidableEq, Repr

structure Circuit (α : Type) where
  nodes : List (Node α)
  edges : List Edge
deriving DecidableEq, Repr

variable {α : Type}

def NodeKind.name : NodeKind → String
  | .input => "input"
  | .gate => "gate"
  | .output => "output"

def NodeKind.ofName? (name : String) : Option NodeKind :=
  [.input, .gate, .output].find? (·.name = name)

namespace Node

/-- The id given to the input of a variable. -/
def inputId (name : String) : String := "input-" ++ name

def input (name : String) (position : Position α) : Node α :=
  ⟨inputId name, .input, name, position⟩

def gate (id : String) (c : Component) (position : Position α) : Node α :=
  ⟨id, .gate, c.name, position⟩

def output (id : String) (position : Position α) : Node α := ⟨id, .output, "OUT", position⟩

def component? (n : Node α) : Option Component :=
  if n.kind = .gate then Component.ofLabel? n.label else none

theorem component?_gate (id : String) (c : Component) (position : Position α) :
    (gate id c position).component? = some c :=
  (if_pos rfl).trans (Component.ofLabel?_name c)

end Node

namespace Circuit

def empty : Circuit α := ⟨[], []⟩

def ofKind (c : Circuit α) (kind : NodeKind) : List (Node α) := c.nodes.filter (·.kind = kind)

def inputs (c : Circuit α) : List (Node α) := c.ofKind .input

def gates (c : Circuit α) : List (Node α) := c.ofKind .gate

def outputs (c : Circuit α) : List (Node α) := c.ofKind .output

def node? (c : Circuit α) (id : String) : Option (Node α) := c.nodes.find? (·.id = id)

def edge? (c : Circuit α) (id : String) : Option Edge := c.edges.find? (·.id = id)

def output? (c : Circuit α) : Option (Node α) := c.nodes.find? (·.kind = .output)

def incoming (c : Circuit α) (id : String) : List Edge := c.edges.filter (·.target = id)

def outgoing (c : Circuit α) (id : String) : List Edge := c.edges.filter (·.source = id)

/-- What drives a node, in edge order. -/
def sources (c : Circuit α) (id : String) : List String := (c.incoming id).map Edge.source

def addNode (c : Circuit α) (n : Node α) : Circuit α := { c with nodes := c.nodes ++ [n] }

def addEdge (c : Circuit α) (e : Edge) : Circuit α := { c with edges := c.edges ++ [e] }

/-- Removes every node with an id; edges stay. -/
def removeNode (c : Circuit α) (id : String) : Circuit α :=
  { c with nodes := c.nodes.filter (·.id ≠ id) }

def removeEdge (c : Circuit α) (id : String) : Circuit α :=
  { c with edges := c.edges.filter (·.id ≠ id) }

/-- Changes the label of the first node with an id. -/
def relabel (c : Circuit α) (id label : String) : Circuit α :=
  { c with nodes := relabelFirst c.nodes }
where
  relabelFirst : List (Node α) → List (Node α)
    | [] => []
    | n :: rest => if n.id = id then { n with label } :: rest else n :: relabelFirst rest

end Circuit

end Switching
