import Switching.Circuit.Basic
import Switching.Expr.GateFolding

/-! Drawing an expression as a circuit. Inputs stand in one column, sorted by
name. A gate stands one column right of its operands, which are stacked
downwards from its top, and is centred on their span. Gates are numbered before
their operands and listed after them. The geometry is generic in its
coordinates. -/
namespace Switching

/-- The arithmetic of coordinates. -/
class Coordinate (α : Type) extends Add α, Sub α, Mul α where
  ofNat : Nat → α
  half : α → α
  larger : α → α → α

/-- A coordinate that is no number loses against one that is. -/
instance : Coordinate Float where
  ofNat := Float.ofNat
  half x := x / 2
  larger x y := if x.isNaN || x < y then y else x

structure Geometry (α : Type) where
  nodeHeight : α
  horizontalSpacing : α
  verticalSpacing : α
  top : α

namespace Geometry

variable {α : Type} [Coordinate α]

def standard : Geometry α :=
  ⟨Coordinate.ofNat 80, Coordinate.ofNat 200, Coordinate.ofNat 100, Coordinate.ofNat 100⟩

/-- A placed expression: its topmost node, the height it takes, what was drawn for it, and the
number of the next gate. -/
structure Placed (α : Type) where
  root : String
  height : α
  gates : List (Node α)
  edges : List Edge
  next : Nat

/-- The operands of a gate as far as they are placed: where the next one goes, the height of
those placed, how many they are, what was drawn for them, and the number of the next gate. -/
structure Stack (α : Type) where
  y : α
  height : α
  count : Nat
  gates : List (Node α)
  edges : List Edge
  next : Nat

def gateId (number : Nat) : String := s!"node-{number}"

/-- The edge from an operand to its place at a gate. -/
def operandEdge (gate operand : String) (place : Nat) : Edge :=
  ⟨s!"edge-{gate}-{operand}-{place}", operand, gate, false⟩

def startStack (y : α) (next : Nat) : Stack α := ⟨y, Coordinate.ofNat 0, 0, [], [], next⟩

def push (geometry : Geometry α) (gate : String) (s : Stack α) (p : Placed α) : Stack α where
  y := s.y + (p.height + geometry.verticalSpacing)
  height :=
    if s.count = 0 then s.height + p.height
    else s.height + p.height + geometry.verticalSpacing
  count := s.count + 1
  gates := s.gates ++ p.gates
  edges := s.edges ++ p.edges ++ [operandEdge gate p.root s.count]
  next := p.next

def close (geometry : Geometry α) (gate : String) (component : Component) (x y : α) (s : Stack α) :
    Placed α where
  root := gate
  height := Coordinate.larger s.height geometry.nodeHeight
  gates := s.gates ++ [.gate gate component
    ⟨x, y + Coordinate.half s.height - Coordinate.half geometry.nodeHeight⟩]
  edges := s.edges
  next := s.next

mutual

def place (geometry : Geometry α) (x y : α) (next : Nat) : Expr → Placed α
  | .var name => ⟨Node.inputId name, geometry.nodeHeight, [], [], next⟩
  | .not e =>
    let operand := place geometry (x - geometry.horizontalSpacing) y (next + 1) e
    geometry.close (gateId next) .inverter x y
      (geometry.push (gateId next) (startStack y (next + 1)) operand)
  | .gate g es =>
    geometry.close (gateId next) (.gate g) x y
      (placeAll geometry (gateId next) (x - geometry.horizontalSpacing)
        (startStack y (next + 1)) es)

def placeAll (geometry : Geometry α) (gate : String) (x : α) (s : Stack α) : List Expr → Stack α
  | [] => s
  | e :: es => placeAll geometry gate x (geometry.push gate s (place geometry x s.y s.next e)) es

end

def inputsAt (geometry : Geometry α) (names : List String) : List (Node α) :=
  names.mapIdx fun i name => .input name ⟨Coordinate.ofNat 0,
    Coordinate.ofNat i * (geometry.nodeHeight + geometry.verticalSpacing)⟩

def outputId : String := "output-node"

/-- Draws an expression as it stands. The output is one column right of the root, level with it. -/
def draw (geometry : Geometry α) (e : Expr) : Circuit α :=
  let x := Coordinate.ofNat e.depth * geometry.horizontalSpacing
  let root := geometry.place x geometry.top 0 e
  let nodes := geometry.inputsAt e.names ++ root.gates
  let y := ((nodes.find? (·.id = root.root)).map (·.position.y)).getD geometry.top
  ⟨nodes ++ [.output outputId ⟨x + geometry.horizontalSpacing, y⟩],
    root.edges ++ [⟨s!"edge-{outputId}-{root.root}", root.root, outputId, true⟩]⟩

end Geometry

/-- Folds spelled-out gates, then draws the result. -/
def Expr.layout {α : Type} [Coordinate α] (geometry : Geometry α) (e : Expr) : Circuit α :=
  geometry.draw e.foldGates

end Switching
