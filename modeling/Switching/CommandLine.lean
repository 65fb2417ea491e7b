import Switching.Session

/-! The report that the command line prints about one expression: its writing
and measures, its simplified form, the circuit it is drawn as and the expression
traced back from it, then, on demand, its truth table and the circuit in DOT.
The log that `--verbose` asks for is no part of it. -/
namespace Switching.CommandLine

inductive Flag where
  | expanded | dot | table | verbose | help | version
deriving DecidableEq, Repr

def Flag.all : List Flag := [.expanded, .dot, .table, .verbose, .help, .version]

def Flag.name : Flag → String
  | .expanded => "--expanded"
  | .dot => "--dot"
  | .table => "--table"
  | .verbose => "--verbose"
  | .help => "--help"
  | .version => "--version"

def Flag.letter? : Flag → Option Char
  | .verbose => some 'v'
  | .help => some 'h'
  | .version => some 'V'
  | .expanded | .dot | .table => none

def Flag.purpose : Flag → String
  | .expanded => "Write NAND/NOR in De Morgan expanded form"
  | .dot => "Print the circuit in DOT format"
  | .table => "Print the truth table"
  | .verbose => "Enable debug logging"
  | .help => "Print help"
  | .version => "Print version"

structure Options where
  text? : Option String := none
  flags : List Flag := []

def Options.has (o : Options) (flag : Flag) : Bool := o.flags.contains flag

/-- Why arguments are not read to their end. -/
inductive Halt where
  | help
  | version
  | misuse
deriving DecidableEq, Repr

inductive Status where
  | success
  | badExpression
  | badUsage
  | checkFailed
deriving DecidableEq, Repr

def Status.code : Status → Nat
  | .success => 0
  | .badExpression => 1
  | .badUsage => 2
  | .checkFailed => 101

structure Outcome where
  status : Status
  output : String
  diagnostic : String

def addText (o : Options) (text : String) : Except Halt Options :=
  if o.text?.isSome then .error .misuse else .ok { o with text? := some text }

/-- Raises a flag, which may be given once. Help and version are answered at once. -/
def addFlag (o : Options) : Flag → Except Halt Options
  | .help => .error .help
  | .version => .error .version
  | flag => if o.has flag then .error .misuse else .ok { o with flags := o.flags ++ [flag] }

def addFlag? (o : Options) : Option Flag → Except Halt Options
  | some flag => addFlag o flag
  | none => .error .misuse

/-- Adds a flag by its name, flags by their letters, or the expression. A lone dash is an
expression. -/
def addArgument (o : Options) (argument : String) : Except Halt Options :=
  match argument.toList with
  | '-' :: '-' :: _ => addFlag? o (Flag.all.find? fun flag => flag.name == argument)
  | '-' :: first :: rest => (first :: rest).foldlM (fun o letter =>
      addFlag? o (Flag.all.find? fun flag => flag.letter? == some letter)) o
  | _ => addText o argument

/-- Reads arguments in any order; `--` ends the flags. -/
def readArguments (o : Options) : List String → Except Halt Options
  | [] => .ok o
  | "--" :: rest => rest.foldlM addText o
  | argument :: rest => do readArguments (← addArgument o argument) rest

def nameSet (names : List String) : String :=
  "\x7b" ++ ", ".intercalate (names.map fun name => "\"" ++ name ++ "\"") ++ "\x7d"

def bit (value : Bool) : String := if value then "1" else "0"

def tableText (t : TruthTable) : String :=
  let line (cells : List String) (last : String) := " ".intercalate cells ++ s!" | {last}\n"
  line t.names "f" ++ String.join (t.rows.map fun row => line (row.assignment.map bit) (bit row.result))

def circuitText (c : Circuit Float) : String :=
  s!"{c.inputs.length} inputs, {c.gates.length} gates, {c.edges.length} edges"

def summary (style : Style) (e : Expr) (c : Circuit Float) : String :=
  s!"parsed     = {e.print style}\n"
    ++ s!"variables  = {nameSet e.vars}\n"
    ++ s!"depth      = {e.depth}, size = {e.size}\n"
    ++ s!"simplified = {e.simplify.print style}\n"
    ++ s!"circuit    = {circuitText c}\n"

/-- The parts of the report that are asked for. -/
def details (o : Options) (e : Expr) (c : Circuit Float) : Except TooManyNames String := do
  let table ← if o.has .table then (TruthTable.ofExpr e).map fun t => "\n" ++ tableText t
    else pure ""
  return table ++ (if o.has .dot then "\n" ++ c.toDot {} else "")

def report (o : Options) (e : Expr) : Outcome :=
  let style := if o.has .expanded then Style.expanded else .compact
  let circuit : Circuit Float := e.layout .standard
  let head := summary style e circuit
  match circuit.toExpr with
  | .error fault => ⟨.badExpression, head, fault.message⟩
  | .ok rebuilt =>
    let head := head ++ s!"rebuilt    = {rebuilt.print style}\n"
    match rebuilt.equivalent e with
    | .error fault => ⟨.checkFailed, head, fault.message⟩
    | .ok false => ⟨.checkFailed, head, "the circuit computes another function"⟩
    | .ok true =>
      match details o e circuit with
      | .error fault => ⟨.checkFailed, head, fault.message⟩
      | .ok text => ⟨.success, head ++ text, ""⟩

def helpLine (flag : Flag) : String :=
  let letter := match flag.letter? with
    | some letter => s!"-{letter}, "
    | none => "    "
  let gap := String.ofList (List.replicate (12 - flag.name.length) ' ')
  "  " ++ letter ++ flag.name ++ gap ++ flag.purpose ++ "\n"

def helpText : String :=
  "Usage: synth [OPTIONS] <EXPR>\n\nArguments:\n"
    ++ "  <EXPR>  Boolean expression, e.g. \"a'b + ab'\" or \"NAND(a, b, c)\"\n\nOptions:\n"
    ++ String.join (Flag.all.map helpLine)

def versionText : String := "bool-synth 0.1.0\n"

def run (arguments : List String) : Outcome :=
  match readArguments {} arguments with
  | .error .help => ⟨.success, helpText, ""⟩
  | .error .version => ⟨.success, versionText, ""⟩
  | .ok o@{ text? := some text, .. } =>
    match Expr.parse text with
    | .ok e => report o e
    | .error fault => ⟨.badExpression, "", fault.message⟩
  | _ => ⟨.badUsage, "", "usage: synth [OPTIONS] <EXPR>"⟩

end Switching.CommandLine
