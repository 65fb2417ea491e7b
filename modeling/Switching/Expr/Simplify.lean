import Switching.Expr.Rewrite
import Switching.TruthTable

/-! Simplification by meaning. An expression of few variables that is a
constant, a variable, a negated variable, or an exclusive sum of its two
variables is replaced by that form; any other is only rewritten. -/
namespace Switching

/-- The first entry of the catalogue with the table's column. -/
def TruthTable.catalogued? (t : TruthTable) : Option Expr :=
  if t.isTautology then some (.constant true)
  else if t.isContradiction then some (.constant false)
  else (literal? t.names.zipIdx).or exclusive?
where
  literal? : List (String × Nat) → Option Expr
    | [] => none
    | (name, place) :: rest =>
      if t.column = t.nameColumn place then some (.var name)
      else if t.column = (t.nameColumn place).map not then some (.not (.var name))
      else literal? rest
  exclusive? : Option Expr :=
    match t.names, t.column with
    | [a, b], [false, true, true, false] => some (.gate .xor [.var a, .var b])
    | [a, b], [true, false, false, true] => some (.gate .xnor [.var a, .var b])
    | _, _ => none

namespace Expr

/-- Expressions of more vars are not tabulated. -/
def simplifyLimit : Nat := 8

def simplify (e : Expr) : Expr :=
  let rewritten := e.rewrite
  if rewritten.vars.length ≤ simplifyLimit then
    (TruthTable.ofNames rewritten.vars rewritten).catalogued?.getD rewritten
  else rewritten

end Expr

end Switching
