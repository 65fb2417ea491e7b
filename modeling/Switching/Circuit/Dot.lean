import Switching.Circuit.Basic

/-! Circuits in the DOT language: inputs on the source rank, outputs on the sink
rank, and the edges in between. Positions are left to the drawing program. -/
namespace Switching

namespace Dot

structure Options where
  inputShape : String := "circle"
  gateShape : String := "box"
  outputShape : String := "doublecircle"
  edgeStyle : String := "solid"
  outputEdgeStyle : String := "bold"
  rankInputs : Bool := true

/-- A backslash goes before every quote and backslash of the text. -/
def escape : List Char → List Char
  | [] => []
  | c :: rest => if c = '"' ∨ c = '\\' then '\\' :: c :: escape rest else c :: escape rest

def quote (text : String) : String := "\"" ++ String.ofList (escape text.toList) ++ "\""

variable {α : Type}

def nodeLine (shape : String) (n : Node α) : String :=
  s!"{quote n.id} [shape={shape}, label={quote n.label}];\n"

def edgeLine (options : Options) (e : Edge) : String :=
  let style := if e.isOutput then options.outputEdgeStyle else options.edgeStyle
  s!"{quote e.source} -> {quote e.target} [style={style}];\n"

end Dot

open Dot in
def Circuit.toDot {α : Type} (c : Circuit α) (options : Options) : String :=
  let inputs := String.join (c.inputs.map (nodeLine options.inputShape))
  "digraph \x7b\nrankdir=LR;\n"
    ++ (if options.rankInputs then "\x7b rank=source\n" ++ inputs ++ "\x7d\n" else inputs)
    ++ String.join (c.gates.map (nodeLine options.gateShape))
    ++ "\x7b rank=sink\n"
    ++ String.join (c.outputs.map (nodeLine options.outputShape))
    ++ "\x7d\n"
    ++ String.join (c.edges.map (edgeLine options))
    ++ "\x7d\n"

end Switching
