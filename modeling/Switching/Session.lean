import Switching.Circuit.Dot
import Switching.Circuit.Layout
import Switching.Circuit.Trace
import Switching.Expr.Parser
import Switching.Expr.Printer
import Switching.Expr.Simplify

/-! A working session holds a current expression, once one is set, and a
circuit. A command that fails leaves the session as it was. -/
namespace Switching

inductive Fault where
  | parse (e : ParseError)
  | trace (e : TraceError)
  | table (e : TooManyNames)
  | noExpression
deriving DecidableEq, Repr

def Fault.message? : Fault → Option String
  | .parse e => some e.message
  | .trace e => some e.message
  | .table e => some e.message
  | .noExpression => none

structure Session where
  expression? : Option Expr
  circuit : Circuit Float

inductive Command where
  | setText (text : String)
  | setExpr (e : Expr)
  | simplify
  | rewrite
  | fold
  | negate
  | reparse (style : Style)
  | eval (a : Assignment)
  | column
  | info
  | layout
  | reconstruct
  | dot
  | graph
  | addNode (n : Node Float)
  | addEdge (e : Edge)
  | removeNode (id : String)
  | removeEdge (id : String)
  | relabel (id label : String)

inductive Answer where
  | done
  | text (text : String)
  | bool (value : Bool)
  | column (bits : List Bool)
  | info (e : Expr)
  | circuit (c : Circuit Float)

namespace Session

def start : Session := ⟨none, .empty⟩

def expression (s : Session) : Except Fault Expr :=
  match s.expression? with
  | some e => .ok e
  | none => .error .noExpression

def set (s : Session) (e : Expr) : Session := { s with expression? := some e }

def transform (s : Session) (f : Expr → Expr) : Except Fault (Answer × Session) := do
  return (.done, s.set (f (← s.expression)))

def run (s : Session) : Command → Except Fault (Answer × Session)
  | .setText text => return (.done, s.set (← (Expr.parse text).mapError .parse))
  | .setExpr e => return (.done, s.set e)
  | .simplify => s.transform Expr.simplify
  | .rewrite => s.transform Expr.rewrite
  | .fold => s.transform Expr.foldGates
  | .negate => s.transform .not
  | .reparse style => do
    let text := (← s.expression).print style
    return (.text text, s.set (← (Expr.parse text).mapError .parse))
  | .eval a => return (.bool ((← s.expression).eval (a.valuation false)), s)
  | .column => do
    let table ← (TruthTable.ofExpr (← s.expression)).mapError .table
    return (.column table.column, s)
  | .info => return (.info (← s.expression), s)
  | .layout => return (.done, { s with circuit := (← s.expression).layout .standard })
  | .reconstruct => return (.done, s.set (← s.circuit.toExpr.mapError .trace))
  | .dot => return (.text (s.circuit.toDot {}), s)
  | .graph => return (.circuit s.circuit, s)
  | .addNode n => return (.done, { s with circuit := s.circuit.addNode n })
  | .addEdge e => return (.done, { s with circuit := s.circuit.addEdge e })
  | .removeNode id =>
    return (.bool (s.circuit.node? id).isSome, { s with circuit := s.circuit.removeNode id })
  | .removeEdge id =>
    return (.bool (s.circuit.edge? id).isSome, { s with circuit := s.circuit.removeEdge id })
  | .relabel id label =>
    return (.bool (s.circuit.node? id).isSome, { s with circuit := s.circuit.relabel id label })

/-- The answer to a command and the session after it. -/
def perform (s : Session) (command : Command) : Except Fault Answer × Session :=
  match s.run command with
  | .ok (answer, next) => (.ok answer, next)
  | .error fault => (.error fault, s)

end Session

end Switching
