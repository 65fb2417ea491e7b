import Switching.Expr.Basic

/-! Building expressions on a stack. Every step takes its operands from the top,
the deepest first, and puts its result there. -/
namespace Switching

inductive Assembly where
  | var (name : String)
  | constant (value : Bool)
  | not
  | gate (g : Gate) (operands : Nat)
deriving DecidableEq, Repr

namespace Assembly

/-- The stack, top at the head, after a step. -/
def step : Assembly → List Expr → Option (List Expr)
  | .var name, stack => some (.var name :: stack)
  | .constant value, stack => some (.constant value :: stack)
  | .not, e :: stack => some (.not e :: stack)
  | .not, [] => none
  | .gate g n, stack =>
    if n ≤ stack.length then some (.gate g (stack.take n).reverse :: stack.drop n) else none

/-- The result of every step and the last stack. -/
def run : List Assembly → List Expr → Option (List Expr × List Expr)
  | [], stack => some ([], stack)
  | a :: rest, stack => do
    let stack ← a.step stack
    let (results, last) ← run rest stack
    return (stack.head?.toList ++ results, last)

end Assembly

end Switching
