/-! Truth values bound to names. Binding a name again replaces its value, so
every name is bound at most once. -/
namespace Switching

structure Assignment where
  bindings : List (String × Bool)

namespace Assignment

def empty : Assignment := ⟨[]⟩

def bind (a : Assignment) (name : String) (value : Bool) : Assignment :=
  ⟨(name, value) :: a.bindings.filter (·.1 ≠ name)⟩

/-- Binds the pairs in order, so the last pair of a name counts. -/
def ofPairs (pairs : List (String × Bool)) : Assignment :=
  pairs.foldl (fun a pair => a.bind pair.1 pair.2) empty

def get? (a : Assignment) (name : String) : Option Bool := a.bindings.lookup name

/-- The value of every name, with `default` for the unbound ones. -/
def valuation (a : Assignment) (default : Bool) (name : String) : Bool :=
  (a.get? name).getD default

end Assignment

end Switching
