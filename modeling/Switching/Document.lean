import Switching.Circuit.Basic
import Switching.Expr.Basic

/-! Plain data for exchange, and its readings as expressions and circuits. A
structure is a record that has all its fields, or the list of their values in
order; further fields of a record are ignored. A case without data is its name,
or a record of that name alone with `null` in it. -/
namespace Switching

inductive Document where
  | null
  | bool (value : Bool)
  | number (value : Float)
  | text (value : String)
  | list (items : List Document)
  | record (fields : List (String × Document))
deriving Inhabited

namespace Document

def asBool? : Document → Option Bool
  | .bool b => some b
  | _ => none

def asNumber? : Document → Option Float
  | .number x => some x
  | _ => none

def asText? : Document → Option String
  | .text s => some s
  | _ => none

def asList? : Document → Option (List Document)
  | .list items => some items
  | _ => none

def asCase? : Document → Option String
  | .text name | .record [(name, .null)] => some name
  | _ => none

def structure? (names : List String) : Document → Option (List Document)
  | .record fields => names.mapM fun name => fields.lookup name
  | .list items => if items.length = names.length then some items else none
  | _ => none

end Document

def Gate.caseName : Gate → String
  | .and => "And"
  | .or => "Or"
  | .xor => "Xor"
  | .xnor => "Xnor"
  | .nand => "Nand"
  | .nor => "Nor"

def Gate.ofDocument? (d : Document) : Option Gate := do
  let name ← d.asCase?
  all.find? (·.caseName = name)

namespace Expr

def toDocument : Expr → Document :=
  fold (fun name => .record [("Var", .text name)]) (fun d => .record [("Not", d)])
    fun g ds => .record [("Nary", .list [.text g.caseName, .list ds])]

mutual

def ofDocument? : Document → Option Expr
  | .record [("Var", .text name)] => some (.var name)
  | .record [("Not", d)] => return .not (← ofDocument? d)
  | .record [("Nary", .list [g, .list ds])] => return .gate (← Gate.ofDocument? g) (← ofDocuments? ds)
  | _ => none

def ofDocuments? : List Document → Option (List Expr)
  | [] => some []
  | d :: ds => return (← ofDocument? d) :: (← ofDocuments? ds)

end

theorem ofDocuments?_map {es : List Expr} (read : ∀ e ∈ es, ofDocument? e.toDocument = some e) :
    ofDocuments? (es.map toDocument) = some es := by
  induction es with
  | nil => rfl
  | cons e es ih =>
    have first := read e (by simp)
    have rest := ih fun e listed => read e (by simp [listed])
    simp [ofDocuments?, first, rest]

/-- What is written reads back as it was. -/
theorem ofDocument?_toDocument (e : Expr) : ofDocument? e.toDocument = some e := by
  induction e with
  | var name => rfl
  | not e ih =>
    have written : toDocument (.not e) = .record [("Not", e.toDocument)] := rfl
    simp [written, ofDocument?, ih]
  | gate g es ih =>
    have named : Gate.ofDocument? (.text g.caseName) = some g := by cases g <;> rfl
    have written : toDocument (.gate g es) =
        .record [("Nary", .list [.text g.caseName, .list (es.map toDocument)])] := by
      simp [toDocument, fold]
    simp [written, ofDocument?, named, ofDocuments?_map ih]

end Expr

def Position.ofDocument? (d : Document) : Option (Position Float) := do
  let [x, y] ← d.structure? ["x", "y"] | none
  return ⟨← x.asNumber?, ← y.asNumber?⟩

def Node.ofDocument? (d : Document) : Option (Node Float) := do
  let [id, kind, label, position] ← d.structure? ["id", "kind", "label", "position"] | none
  return ⟨← id.asText?, ← kind.asCase?.bind NodeKind.ofName?, ← label.asText?,
    ← Position.ofDocument? position⟩

def Edge.ofDocument? (d : Document) : Option Edge := do
  let [id, source, target, isOutput] ← d.structure? ["id", "source", "target", "is_output"] | none
  return ⟨← id.asText?, ← source.asText?, ← target.asText?, ← isOutput.asBool?⟩

def Circuit.ofDocument? (d : Document) : Option (Circuit Float) := do
  let [nodes, edges] ← d.structure? ["nodes", "edges"] | none
  return ⟨← (← nodes.asList?).mapM Node.ofDocument?, ← (← edges.asList?).mapM Edge.ofDocument?⟩

end Switching
