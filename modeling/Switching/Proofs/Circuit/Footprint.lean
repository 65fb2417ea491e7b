import Mathlib.Algebra.Order.Field.Rat
import Switching.Circuit.Layout
import Switching.Expr.Parts

/-! Drawings in exact arithmetic, and the room that the parts of an expression take in them. A name
takes the height of a node. Operands are stacked downwards with gaps between them, and a gate takes
what its operands take together, but no less than a node. -/
namespace Switching

instance : Coordinate ℚ where
  ofNat n := n
  half x := x / 2
  larger := max

namespace Geometry

/-- What is stacked reaches from the top of the first to the bottom of the last. -/
def span (gap : ℚ) : List ℚ → ℚ
  | [] => 0
  | height :: rest => height + (rest.map (gap + ·)).sum

/-- A part of a drawing, with the top of its footprint and the number of the first of its gates. -/
structure Site where
  top : ℚ
  number : Nat
  part : Expr

variable (geometry : Geometry ℚ)

/-- The height of a footprint, which is what placing an expression reports. -/
def height : Expr → ℚ :=
  Expr.fold (fun _ => geometry.nodeHeight)
    (fun operand => max (span geometry.verticalSpacing [operand]) geometry.nodeHeight)
    fun _ operands => max (span geometry.verticalSpacing operands) geometry.nodeHeight

def Site.bottom (s : Site) : ℚ := s.top + geometry.height s.part

/-- Expressions stacked downwards from a top, their gates numbered one after the other. -/
def sites (top : ℚ) (number : Nat) : List Expr → List Site
  | [] => []
  | e :: es => ⟨top, number, e⟩ ::
    sites (top + (geometry.height e + geometry.verticalSpacing)) (number + e.gates.length) es

def Site.operands (s : Site) : List Site := geometry.sites s.top (s.number + 1) s.part.operands

/-- A part of what stands at a site, drawn along with it. -/
inductive Site.Within : Site → Site → Prop
  | self {s : Site} : Within s s
  | operand {s t u : Site} : t ∈ s.operands geometry → Within t u → Within s u

end Geometry

end Switching
