/-! Sets of names as lists in code point order without repetition. -/
namespace Switching.Names

def insert (name : String) : List String → List String
  | [] => [name]
  | other :: rest =>
    if name < other then name :: other :: rest
    else if name = other then other :: rest
    else other :: insert name rest

def ofList (names : List String) : List String := names.foldr insert []

@[simp] theorem mem_insert {name other : String} {names : List String} :
    name ∈ insert other names ↔ name = other ∨ name ∈ names := by
  induction names with
  | nil => simp [insert]
  | cons first rest ih => grind [insert]

@[simp] theorem mem_ofList {name : String} {names : List String} :
    name ∈ ofList names ↔ name ∈ names := by
  induction names with
  | nil => simp [ofList]
  | cons first rest ih =>
    have unfolded : ofList (first :: rest) = insert first (ofList rest) := rfl
    simp [unfolded, ih]

end Switching.Names
