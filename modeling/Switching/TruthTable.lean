import Switching.Expr.Basic

/-! Truth tables over a list of names. Rows count upwards in binary with the
first name as the most significant bit. A name listed twice is looked up at its
first place; names that are not listed are false. -/
namespace Switching

structure Row where
  assignment : List Bool
  result : Bool
deriving DecidableEq, Repr

structure TruthTable where
  names : List String
  rows : List Row
deriving DecidableEq, Repr

/-- A table is refused when its rows cannot be counted in a machine word, or when they can but would
take more bytes than one list may. -/
inductive TooManyNames where
  | uncountable (count : Nat)
  | unallocatable
deriving DecidableEq, Repr

def TooManyNames.message : TooManyNames → String
  | .uncountable count => s!"truth table over {count} variables has more rows than fit in a usize"
  | .unallocatable => "capacity overflow"

/-- All bit strings of a length, counting upwards. -/
def bitStrings : Nat → List (List Bool)
  | 0 => [[]]
  | n + 1 => (bitStrings n).map (false :: ·) ++ (bitStrings n).map (true :: ·)

namespace TruthTable

/-- The bits of a machine word. -/
def nameLimit : Nat := 64

/-- What a row takes in the list of rows, its bits being stored elsewhere. -/
def rowBytes : Nat := 32

/-- The most bytes that one list may take: half of what a machine word counts. -/
def byteLimit : Nat := 9223372036854775807

/-- Why no table is begun over so many names, if none is. Room for all rows is reserved before the
first of them is computed. -/
def refusal? (count : Nat) : Option TooManyNames :=
  if nameLimit ≤ count then some (.uncountable count)
  else if byteLimit < rowBytes * (1 <<< count) then some .unallocatable
  else none

/-- The value of a name in a row. -/
def rowValue (names : List String) (bits : List Bool) (name : String) : Bool :=
  ((names.zip bits).lookup name).getD false

def ofNames (names : List String) (e : Expr) : TruthTable :=
  ⟨names, (bitStrings names.length).map fun bits => ⟨bits, e.eval (rowValue names bits)⟩⟩

def tabulate (names : List String) (e : Expr) : Except TooManyNames TruthTable :=
  match refusal? names.length with
  | some refusal => .error refusal
  | none => .ok (ofNames names e)

def ofExpr (e : Expr) : Except TooManyNames TruthTable := tabulate e.vars e

def column (t : TruthTable) : List Bool := t.rows.map Row.result

/-- The values of the name at a place, row by row. -/
def nameColumn (t : TruthTable) (place : Nat) : List Bool :=
  t.rows.map fun row => row.assignment.getD place false

def isTautology (t : TruthTable) : Bool := t.rows.all Row.result

def isContradiction (t : TruthTable) : Bool := t.rows.all fun row => !row.result

/-- The values a row gives to the names; of a name listed twice the last place counts. -/
def rowAssignment? (t : TruthTable) (row : Nat) : Option Assignment :=
  t.rows[row]?.map fun r => .ofPairs (t.names.zip r.assignment)

end TruthTable

/-- Decides whether two expressions have one value under every valuation, by their tables over
the vars of both. -/
def Expr.equivalent (a b : Expr) : Except TooManyNames Bool := do
  let names := Names.ofList (a.vars ++ b.vars)
  return (← TruthTable.tabulate names a).column == (← TruthTable.tabulate names b).column

namespace TruthTable

end TruthTable

theorem length_of_mem_bitStrings {n : Nat} {bits : List Bool} (h : bits ∈ bitStrings n) :
    bits.length = n := by
  induction n generalizing bits with
  | zero => simp_all [bitStrings]
  | succ n ih => grind [bitStrings]

theorem mem_bitStrings (bits : List Bool) : bits ∈ bitStrings bits.length := by
  induction bits with
  | nil => simp [bitStrings]
  | cons b bits ih => cases b <;> simp [bitStrings, ih]

end Switching
