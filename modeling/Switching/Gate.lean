/-! Gates over any number of operands. AND and OR extend by conjunction and
disjunction, XOR by parity; the other three are their complements. With no
operands AND is true and OR and XOR are false. -/
namespace Switching

inductive Gate where
  | and | or | xor | xnor | nand | nor
deriving DecidableEq, Repr

namespace Gate

def all : List Gate := [.and, .or, .xor, .xnor, .nand, .nor]

def letters : Gate → List Char
  | .and => ['A', 'N', 'D']
  | .or => ['O', 'R']
  | .xor => ['X', 'O', 'R']
  | .xnor => ['X', 'N', 'O', 'R']
  | .nand => ['N', 'A', 'N', 'D']
  | .nor => ['N', 'O', 'R']

def name (g : Gate) : String := String.ofList g.letters

/-- The gate a word spells, in either case of the ASCII letters. -/
def ofLetters? (word : List Char) : Option Gate :=
  all.find? fun g => g.letters == word.map Char.toUpper

def ofName? (name : String) : Option Gate := ofLetters? name.toList

/-- Binding strength of the gate written between two operands. -/
def precedence : Gate → Nat
  | .and | .nand => 3
  | .or | .nor | .xor | .xnor => 2

def inverting : Gate → Bool
  | .xnor | .nand | .nor => true
  | .and | .or | .xor => false

def complement : Gate → Gate
  | .and => .nand
  | .nand => .and
  | .or => .nor
  | .nor => .or
  | .xor => .xnor
  | .xnor => .xor

/-- The gate whose complement an inverting gate computes; any other gate is its own base. -/
def base (g : Gate) : Gate := if g.inverting then g.complement else g

/-- The gate that De Morgan's laws put in place of this one. Parity has none and is kept. -/
def dual : Gate → Gate
  | .and => .or
  | .or => .and
  | .nand => .nor
  | .nor => .nand
  | .xor => .xor
  | .xnor => .xnor

def eval : Gate → List Bool → Bool
  | .and, values => values.all id
  | .or, values => values.any id
  | .xor, values => values.foldr Bool.xor false
  | .xnor, values => !values.foldr Bool.xor false
  | .nand, values => !values.all id
  | .nor, values => !values.any id

theorem mem_all (g : Gate) : g ∈ all := by cases g <;> decide

@[simp] theorem toList_name (g : Gate) : g.name.toList = g.letters := String.toList_ofList

theorem ofLetters?_letters (g : Gate) : ofLetters? g.letters = some g := by cases g <;> decide

@[simp] theorem complement_complement (g : Gate) : g.complement.complement = g := by cases g <;> rfl

@[simp] theorem dual_dual (g : Gate) : g.dual.dual = g := by cases g <;> rfl

@[simp] theorem eval_complement (g : Gate) (values : List Bool) :
    g.complement.eval values = !g.eval values := by
  cases g <;> simp [complement, eval]

theorem eval_base (g : Gate) (values : List Bool) :
    g.eval values = (g.base.eval values ^^ g.inverting) := by
  cases g <;> simp [base, inverting, complement, eval]

/-- De Morgan's law over all operands at once. -/
theorem eval_dual (g : Gate) (parity : g.base ≠ .xor) (values : List Bool) :
    g.dual.eval (values.map not) = !g.eval values := by
  cases g <;> simp_all [base, inverting, complement, dual, eval, List.any_map, List.all_map,
    List.not_all_eq_any_not, List.not_any_eq_all_not]

end Gate

end Switching
