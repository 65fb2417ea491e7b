import Switching.Gate

/-! What a gate node of a circuit computes: an inverter of one input, or a gate
over one input or more. Components are labelled by their names and sort in the
order in which they are declared. -/
namespace Switching

inductive Component where
  | inverter
  | gate (g : Gate)
deriving DecidableEq, Repr

namespace Component

def all : List Component := .inverter :: Gate.all.map .gate

def letters : Component → List Char
  | .inverter => ['N', 'O', 'T']
  | .gate g => g.letters

def name (c : Component) : String := String.ofList c.letters

/-- The component a label names, in either case of the ASCII letters. -/
def ofLabel? (label : String) : Option Component :=
  all.find? fun c => c.letters == label.toList.map Char.toUpper

/-- Negation binds tighter than every gate. -/
def precedence : Component → Nat
  | .inverter => 4
  | .gate g => g.precedence

def minInputs (_ : Component) : Nat := 1

/-- The largest number of inputs, if there is one. -/
def maxInputs? : Component → Option Nat
  | .inverter => some 1
  | .gate _ => none

def accepts (c : Component) (inputs : Nat) : Bool :=
  c.minInputs ≤ inputs && c.maxInputs?.all (inputs ≤ ·)

/-- An inverter looks at its first input only. -/
def eval : Component → List Bool → Bool
  | .inverter, values => !values.headD false
  | .gate g, values => g.eval values

def rank (c : Component) : Nat := all.idxOf c

def sort (components : List Component) : List Component :=
  components.mergeSort fun a b => a.rank ≤ b.rank

theorem mem_all (c : Component) : c ∈ all := by
  cases c with
  | inverter => decide
  | gate g => cases g <;> decide

@[simp] theorem toList_name (c : Component) : c.name.toList = c.letters := String.toList_ofList

@[simp] theorem ofLabel?_name (c : Component) : ofLabel? c.name = some c := by
  rw [ofLabel?, toList_name]
  cases c with
  | inverter => decide
  | gate g => cases g <;> decide

@[simp] theorem accepts_inverter (n : Nat) : accepts .inverter n ↔ n = 1 := by
  simp only [accepts, maxInputs?, Option.all_some, Bool.and_eq_true, decide_eq_true_iff]
  exact ⟨fun h => Nat.le_antisymm h.2 h.1, fun h => ⟨Nat.le_of_eq h.symm, Nat.le_of_eq h⟩⟩

@[simp] theorem accepts_gate (g : Gate) (n : Nat) : accepts (.gate g) n ↔ 0 < n := by
  simp only [accepts, maxInputs?, Option.all_none, Bool.and_true, decide_eq_true_iff]
  rfl

end Component

end Switching
