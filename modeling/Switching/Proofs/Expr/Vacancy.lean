import Switching.Expr.Parts

/-! Gates without operands. They are well-formed expressions with a constant
value, but no circuit shows them, so the expressions without any of them and
the first one of the others are told apart here. -/
namespace Switching.Expr

/-- Every gate has an operand. -/
def Filled (e : Expr) : Prop := ∀ g, ¬ PartOf (.gate g []) e

theorem filled_iff {e : Expr} : e.Filled ↔ ∀ part ∈ e.gates, part.operands ≠ [] := by
  constructor
  · intro filled part listed vacant
    have within := (mem_gates.mp listed).1
    cases part with
    | var name => cases (mem_gates.mp listed).2
    | not e => cases vacant
    | gate g es =>
      obtain rfl : es = [] := vacant
      exact filled g within
  · intro each g within
    exact each (.gate g []) (mem_gates.mpr ⟨within, rfl⟩) rfl

instance (e : Expr) : Decidable e.Filled := decidable_of_iff _ filled_iff.symm

@[simp] theorem filled_var (name : String) : (Expr.var name).Filled := by
  simp [filled_iff, gates]

@[simp] theorem filled_not {e : Expr} : (Expr.not e).Filled ↔ e.Filled := by
  simp [filled_iff, gates, operands]

@[simp] theorem filled_gate {g : Gate} {es : List Expr} :
    (Expr.gate g es).Filled ↔ es ≠ [] ∧ ∀ e ∈ es, e.Filled := by
  simp only [filled_iff, gates, gatesAll_eq_flatMap, List.forall_mem_cons, operands,
    List.mem_flatMap]
  grind

/-- The number and kind of the first gate without operands among consecutively numbered gates. -/
def firstVacant? (next : Nat) : List Expr → Option (Nat × Gate)
  | [] => none
  | .gate g [] :: _ => some (next, g)
  | _ :: rest => firstVacant? (next + 1) rest

theorem vacant_or_filled (part : Expr) :
    (∃ g, part = .gate g []) ∨ ∀ g, part ≠ .gate g [] := by
  by_cases vacant : ∃ g, part = .gate g []
  · exact .inl vacant
  · exact .inr fun g same => vacant ⟨g, same⟩

theorem firstVacant?_cons_of_ne {part : Expr} (filled : ∀ g, part ≠ .gate g []) (next : Nat)
    (rest : List Expr) : firstVacant? next (part :: rest) = firstVacant? (next + 1) rest := by
  match part, filled with
  | .var _, _ | .not _, _ | .gate _ (_ :: _), _ => rfl
  | .gate g [], filled => exact absurd rfl (filled g)

theorem firstVacant?_append (next : Nat) (xs ys : List Expr) :
    firstVacant? next (xs ++ ys) =
      (firstVacant? next xs).or (firstVacant? (next + xs.length) ys) := by
  induction xs generalizing next with
  | nil => rfl
  | cons part xs ih =>
    rcases vacant_or_filled part with ⟨g, rfl⟩ | filled
    · rfl
    · rw [List.cons_append, firstVacant?_cons_of_ne filled, firstVacant?_cons_of_ne filled, ih,
        List.length_cons, Nat.add_assoc, Nat.add_comm 1]

theorem firstVacant?_eq_none {next : Nat} {parts : List Expr} :
    firstVacant? next parts = none ↔ ∀ g, .gate g [] ∉ parts := by
  induction parts generalizing next with
  | nil => simp [firstVacant?]
  | cons part rest ih =>
    rcases vacant_or_filled part with ⟨g, rfl⟩ | filled
    · simp only [firstVacant?, reduceCtorEq, false_iff]
      exact fun absent => absent g List.mem_cons_self
    · rw [firstVacant?_cons_of_ne filled, ih]
      simp only [List.mem_cons, not_or]
      exact ⟨fun absent g => ⟨(filled g).symm, absent g⟩, fun absent g => (absent g).2⟩

theorem firstVacant?_eq_some {next number : Nat} {g : Gate} {parts : List Expr}
    (first : firstVacant? next parts = some (number, g)) :
    ∃ k, number = next + k ∧ parts[k]? = some (.gate g []) ∧
      ∀ j < k, ∀ h, parts[j]? ≠ some (.gate h []) := by
  induction parts generalizing next with
  | nil => cases first
  | cons part rest ih =>
    rcases vacant_or_filled part with ⟨h, rfl⟩ | filled
    · cases first
      exact ⟨0, rfl, rfl, nofun⟩
    · rw [firstVacant?_cons_of_ne filled] at first
      obtain ⟨k, rfl, found, before⟩ := ih first
      refine ⟨k + 1, by omega, found, ?_⟩
      intro j below h
      cases j with
      | zero => exact fun same => filled h (Option.some.inj same)
      | succ j => exact before j (by omega) h

theorem firstVacant?_gates {next : Nat} {e : Expr} :
    firstVacant? next e.gates = none ↔ e.Filled := by
  rw [firstVacant?_eq_none]
  constructor
  · intro absent g within
    exact absent g (mem_gates.mpr ⟨within, rfl⟩)
  · intro filled g listed
    exact filled g (mem_gates.mp listed).1

end Switching.Expr
