import Switching.Expr.Basic

/-! The parts of an expression: itself and the parts of its operands. The
gates of an expression are its parts other than names, each before the gates of
its operands, from left to right. -/
namespace Switching.Expr

inductive PartOf (part : Expr) : Expr → Prop
  | self : PartOf part part
  | operand {e f : Expr} : e ∈ f.operands → PartOf part e → PartOf part f

mutual

def gates : Expr → List Expr
  | .var _ => []
  | .not e => .not e :: gates e
  | .gate g es => .gate g es :: gatesAll es

def gatesAll : List Expr → List Expr
  | [] => []
  | e :: es => gates e ++ gatesAll es

end

@[simp] theorem gatesAll_eq_flatMap (es : List Expr) : gatesAll es = es.flatMap gates := by
  induction es with
  | nil => rfl
  | cons e es ih => simp [gatesAll, ih]

theorem depth_le_of_mem {e : Expr} {es : List Expr} (listed : e ∈ es) :
    e.depth ≤ (es.map depth).foldr max 0 := by
  induction es with
  | nil => cases listed
  | cons f es ih =>
    rw [List.map_cons, List.foldr_cons]
    rcases List.mem_cons.mp listed with rfl | later
    · exact Nat.le_max_left _ _
    · exact Nat.le_trans (ih later) (Nat.le_max_right _ _)

section

variable {e : Expr} {c : Component} (named : e.component? = some c)

include named

theorem gates_of_component : e.gates = e :: e.operands.flatMap gates := by
  cases e with
  | var name => cases named
  | not e => rw [gates, operands, List.flatMap_singleton]
  | gate g es => rw [gates, gatesAll_eq_flatMap, operands]

theorem asVar?_of_component : e.asVar? = none := by
  cases e with
  | var name => cases named
  | not e => rfl
  | gate g es => rfl

theorem leaves_of_component : e.leaves = e.operands.flatMap leaves := by
  cases e with
  | var name => cases named
  | not e => rw [leaves_not, operands, List.flatMap_singleton]
  | gate g es => rw [leaves_gate, operands]

theorem size_of_component : e.size = (e.operands.map size).foldr (· + ·) 0 + 1 := by
  cases e with
  | var name => cases named
  | not e => rw [size_not, operands, List.map_singleton, List.foldr_cons, List.foldr_nil, Nat.add_zero]
  | gate g es => rw [size_gate, operands]

theorem depth_of_component : e.depth = (e.operands.map depth).foldr max 0 + 1 := by
  cases e with
  | var name => cases named
  | not e => rw [depth_not, operands, List.map_singleton, List.foldr_cons, List.foldr_nil, Nat.max_zero]
  | gate g es => rw [depth_gate, operands]

theorem depth_lt_of_mem_operands {f : Expr} (listed : f ∈ e.operands) : f.depth < e.depth := by
  rw [depth_of_component named]
  exact Nat.lt_succ_of_le (depth_le_of_mem listed)

end

/-- Induction for facts that tell a negation from no other gate. -/
theorem induction_on_operands {motive : Expr → Prop} (var : ∀ name, motive (.var name))
    (component : ∀ (e : Expr) (c : Component), e.component? = some c →
      (∀ f ∈ e.operands, motive f) → motive e) : ∀ e, motive e := by
  intro e
  induction e with
  | var name => exact var name
  | not e ih => exact component _ .inverter rfl (List.forall_mem_singleton.mpr ih)
  | gate g es ih => exact component _ (.gate g) rfl ih

theorem PartOf.trans {a b c : Expr} (inner : PartOf a b) (outer : PartOf b c) : PartOf a c := by
  induction outer with
  | self => exact inner
  | operand listed _ ih => exact .operand listed ih

theorem mem_gates {part e : Expr} :
    part ∈ e.gates ↔ PartOf part e ∧ part.asVar? = none := by
  induction e using induction_on_operands with
  | var name =>
    refine ⟨nofun, fun ⟨within, other⟩ => ?_⟩
    cases within with
    | self => cases other
    | operand listed _ => cases listed
  | component e c named ih =>
    rw [gates_of_component named, List.mem_cons, List.mem_flatMap]
    constructor
    · rintro (rfl | ⟨f, listed, found⟩)
      · exact ⟨.self, asVar?_of_component named⟩
      · obtain ⟨within, other⟩ := (ih f listed).1 found
        exact ⟨.operand listed within, other⟩
    · rintro ⟨within, other⟩
      cases within with
      | self => exact .inl rfl
      | operand listed within => exact .inr ⟨_, listed, (ih _ listed).2 ⟨within, other⟩⟩

theorem exists_component_of_mem_gates {part e : Expr} (listed : part ∈ e.gates) :
    ∃ c, part.component? = some c := by
  cases part with
  | var name => exact absurd (mem_gates.mp listed).2 (by simp [asVar?])
  | not e => exact ⟨.inverter, rfl⟩
  | gate g es => exact ⟨.gate g, rfl⟩

end Switching.Expr
