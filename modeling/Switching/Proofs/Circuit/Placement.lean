import Mathlib.Algebra.Order.BigOperators.Group.List
import Mathlib.Order.CompletePartialOrder
import Mathlib.Order.Interval.Set.Basic
import Mathlib.Tactic.Linarith
import Mathlib.Tactic.Ring
import Switching.Proofs.Circuit.Footprint
import Switching.Proofs.Circuit.Inventory
import Switching.Proofs.Expr.Extent
import Switching.Proofs.Expr.Vacancy

/-! Where the nodes of a drawing stand, in exact arithmetic. What is drawn for the operands of a gate
is drawn at their sites, one below the other, and stays inside their footprints, so no two gates of
one column meet. Each level stands one column left of the level above it, and no gate stands as far
left as the inputs. -/
namespace Switching

namespace Geometry

open Switching.Expr

theorem span_cons_cons (gap first second : ℚ) (rest : List ℚ) :
    span gap (first :: second :: rest) = first + gap + span gap (second :: rest) := by
  simp only [span, List.map_cons, List.sum_cons]
  ring

variable (geometry : Geometry ℚ)

theorem height_of_component {e : Expr} {c : Component} (named : e.component? = some c) :
    geometry.height e = max (span geometry.verticalSpacing (e.operands.map geometry.height))
      geometry.nodeHeight := by
  cases e with
  | var name => cases named
  | not e => rfl
  | gate g es => simp [height, fold, operands]

theorem nodeHeight_le_height (e : Expr) : geometry.nodeHeight ≤ geometry.height e := by
  cases e with
  | var name => exact le_refl _
  | not e => exact le_max_right _ _
  | gate g es =>
    rw [geometry.height_of_component rfl]
    exact le_max_right _ _

theorem height_placeAll {es : List Expr} {gate : String} {x : ℚ}
    (each : ∀ e ∈ es, ∀ x y next, (geometry.place x y next e).height = geometry.height e)
    {s : Stack ℚ} (begun : s.count ≠ 0) :
    (geometry.placeAll gate x s es).height =
      s.height + ((es.map geometry.height).map (geometry.verticalSpacing + ·)).sum := by
  induction es generalizing s with
  | nil => simp [placeAll]
  | cons e es ih =>
    have own := each e List.mem_cons_self x s.y s.next
    have grown : (geometry.push gate s (geometry.place x s.y s.next e)).height =
        s.height + geometry.height e + geometry.verticalSpacing := by
      simp only [push, if_neg begun, own]
    rw [placeAll, ih (fun f listed => each f (List.mem_cons_of_mem _ listed)) (Nat.succ_ne_zero _),
      grown, List.map_cons, List.map_cons, List.sum_cons]
    ring

theorem height_placeAll_start {es : List Expr} (gate : String) (x y : ℚ) (next : Nat)
    (each : ∀ e ∈ es, ∀ x y next, (geometry.place x y next e).height = geometry.height e) :
    (geometry.placeAll gate x (startStack y next) es).height =
      span geometry.verticalSpacing (es.map geometry.height) := by
  cases es with
  | nil => rfl
  | cons e es =>
    have own := each e List.mem_cons_self x y next
    have first : (geometry.push gate (startStack y next) (geometry.place x y next e)).height =
        geometry.height e := by
      simp only [push, startStack, if_true, own]
      exact zero_add _
    have rest : (geometry.placeAll gate x (startStack y next) (e :: es)).height = _ :=
      geometry.height_placeAll (fun f listed => each f (List.mem_cons_of_mem _ listed))
        (Nat.succ_ne_zero _)
    rw [rest, List.map_cons, span]
    exact congrArg (· + _) first

theorem height_place (e : Expr) :
    ∀ x y next, (geometry.place x y next e).height = geometry.height e := by
  induction e using induction_on_operands with
  | var name => exact fun _ _ _ => rfl
  | component e c named ih =>
    intro x y next
    rw [place_of_component geometry named, close, geometry.height_placeAll_start _ _ _ _ ih,
      geometry.height_of_component named]
    rfl

theorem y_push_place (gate : String) (x : ℚ) (s : Stack ℚ) (e : Expr) :
    (geometry.push gate s (geometry.place x s.y s.next e)).y =
      s.y + (geometry.height e + geometry.verticalSpacing) := by
  rw [push, height_place]

theorem next_push_place (gate : String) (x : ℚ) (s : Stack ℚ) (e : Expr) :
    (geometry.push gate s (geometry.place x s.y s.next e)).next = s.next + e.gates.length :=
  (draws_place geometry e x s.y s.next).next

/-- Each operand is drawn as it is placed at its site. -/
theorem gates_placeAll (es : List Expr) (gate : String) (x : ℚ) (s : Stack ℚ) :
    (geometry.placeAll gate x s es).gates = s.gates ++
      (geometry.sites s.y s.next es).flatMap fun t =>
        (geometry.place x t.top t.number t.part).gates := by
  induction es generalizing s with
  | nil => simp [placeAll, sites]
  | cons e es ih =>
    rw [placeAll, ih, y_push_place, next_push_place, sites, List.flatMap_cons, push,
      List.append_assoc]

theorem mem_edges_placeAll {es : List Expr} {gate : String} {x : ℚ} {s : Stack ℚ} {edge : Edge}
    (listed : edge ∈ (geometry.placeAll gate x s es).edges) : edge ∈ s.edges ∨
      ∃ t ∈ geometry.sites s.y s.next es, edge ∈ (geometry.place x t.top t.number t.part).edges ∨
        ∃ place, edge = operandEdge gate (geometry.place x t.top t.number t.part).root place := by
  induction es generalizing s with
  | nil => exact .inl listed
  | cons e es ih =>
    rw [sites]
    rcases ih listed with before | ⟨t, later, drawn⟩
    · simp only [push, List.mem_append, List.mem_singleton] at before
      rcases before with (before | inner) | own
      · exact .inl before
      · exact .inr ⟨_, List.mem_cons_self, .inl inner⟩
      · exact .inr ⟨_, List.mem_cons_self, .inr ⟨_, own⟩⟩
    · rw [y_push_place, next_push_place] at later
      exact .inr ⟨t, List.mem_cons_of_mem _ later, drawn⟩

variable {geometry} {e : Expr} {c : Component}

theorem gates_place (named : e.component? = some c) (x y : ℚ) (next : Nat) :
    (geometry.place x y next e).gates =
      ((⟨y, next, e⟩ : Site).operands geometry).flatMap (fun t =>
        (geometry.place (x - geometry.horizontalSpacing) t.top t.number t.part).gates) ++
      [.gate (gateId next) c ⟨x, y +
        span geometry.verticalSpacing (e.operands.map geometry.height) / 2 - geometry.nodeHeight / 2⟩] := by
  have stacked := geometry.height_placeAll_start (gateId next) (x - geometry.horizontalSpacing) y
    (next + 1) fun f (_ : f ∈ e.operands) => geometry.height_place f
  rw [place_of_component geometry named, close, gates_placeAll, stacked]
  rfl

theorem mem_of_mem_sites {es : List Expr} {top : ℚ} {number : Nat} {t : Site}
    (listed : t ∈ geometry.sites top number es) : t.part ∈ es := by
  induction es generalizing top number with
  | nil => cases listed
  | cons e es ih =>
    rcases List.mem_cons.mp listed with rfl | later
    · exact List.mem_cons_self
    · exact List.mem_cons_of_mem _ (ih later)

/-- A gate drawn for a part is drawn for one of its operands or is its own. -/
theorem mem_gates_place (named : e.component? = some c) {x y : ℚ} {next : Nat} {n : Node ℚ}
    (listed : n ∈ (geometry.place x y next e).gates) :
    (∃ t ∈ (⟨y, next, e⟩ : Site).operands geometry, t.part ∈ e.operands ∧
      n ∈ (geometry.place (x - geometry.horizontalSpacing) t.top t.number t.part).gates) ∨
    n = .gate (gateId next) c ⟨x, y +
      span geometry.verticalSpacing (e.operands.map geometry.height) / 2 - geometry.nodeHeight / 2⟩ := by
  rw [gates_place named, List.mem_append, List.mem_flatMap, List.mem_singleton] at listed
  exact listed.imp_left fun ⟨t, site, inner⟩ => ⟨t, site, mem_of_mem_sites site, inner⟩

theorem exists_component_of_mem_operands {s t : Site} (site : t ∈ s.operands geometry) :
    ∃ k, s.part.component? = some k := by
  have operand := mem_of_mem_sites site
  cases shape : s.part with
  | var name =>
    rw [shape] at operand
    cases operand
  | not e => exact ⟨.inverter, rfl⟩
  | gate g es => exact ⟨.gate g, rfl⟩

/-- What is drawn for an operand is drawn for the whole. -/
theorem gates_place_subset {s t : Site} (site : t ∈ s.operands geometry) (x : ℚ) :
    (geometry.place (x - geometry.horizontalSpacing) t.top t.number t.part).gates ⊆
      (geometry.place x s.top s.number s.part).gates := by
  obtain ⟨k, named⟩ := exists_component_of_mem_operands site
  intro n inner
  rw [gates_place named]
  exact List.mem_append_left _ (List.mem_flatMap.mpr ⟨t, site, inner⟩)

/-- A stack ends where its last footprint does. -/
theorem exists_ends_sites (geometry : Geometry ℚ) {es : List Expr} (given : es ≠ []) (top : ℚ)
    (number : Nat) : ∃ first last, (geometry.sites top number es).head? = some first ∧
      (geometry.sites top number es).getLast? = some last ∧ first.top = top ∧
      last.bottom geometry = top + span geometry.verticalSpacing (es.map geometry.height) := by
  induction es generalizing top number with
  | nil => exact absurd rfl given
  | cons e es ih =>
    cases es with
    | nil => exact ⟨_, ⟨top, number, e⟩, rfl, rfl, rfl, by simp [Site.bottom, span]⟩
    | cons f fs =>
      obtain ⟨-, last, -, found, -, ends⟩ := ih (List.cons_ne_nil _ _)
        (top + (geometry.height e + geometry.verticalSpacing)) (number + e.gates.length)
      refine ⟨_, last, rfl, ?_, rfl, ?_⟩
      · rw [sites, List.getLast?_cons, found]
        rfl
      · rw [ends, List.map_cons, List.map_cons, List.map_cons, span_cons_cons]
        ring

section

variable (tall : 0 < geometry.nodeHeight) (gapped : 0 < geometry.verticalSpacing)

include tall gapped

theorem le_span_cons (e : Expr) (es : List Expr) : geometry.height e ≤
    span geometry.verticalSpacing ((e :: es).map geometry.height) := by
  have below : 0 ≤ ((es.map geometry.height).map (geometry.verticalSpacing + ·)).sum := by
    apply List.sum_nonneg
    intro more listed
    obtain ⟨_, member, rfl⟩ := List.mem_map.mp listed
    obtain ⟨f, -, rfl⟩ := List.mem_map.mp member
    have := geometry.nodeHeight_le_height f
    linarith
  rw [List.map_cons, span]
  linarith

theorem bounds_of_mem_sites {es : List Expr} {top : ℚ} {number : Nat} {t : Site}
    (listed : t ∈ geometry.sites top number es) : top ≤ t.top ∧
      t.bottom geometry ≤ top + span geometry.verticalSpacing (es.map geometry.height) := by
  induction es generalizing top number with
  | nil => cases listed
  | cons e es ih =>
    rcases List.mem_cons.mp listed with rfl | later
    · have reached := le_span_cons tall gapped e es
      exact ⟨le_refl _, add_le_add_right reached top⟩
    · obtain ⟨above, below⟩ := ih later
      have high := geometry.nodeHeight_le_height e
      cases es with
      | nil => cases later
      | cons f fs =>
        rw [List.map_cons, List.map_cons, span_cons_cons]
        rw [List.map_cons] at below
        constructor <;> linarith

/-- Between two footprints of one stack there is room for the gap. -/
theorem pairwise_sites (es : List Expr) (top : ℚ) (number : Nat) :
    (geometry.sites top number es).Pairwise fun s t =>
      s.bottom geometry + geometry.verticalSpacing ≤ t.top := by
  induction es generalizing top number with
  | nil => exact .nil
  | cons e es ih =>
    refine List.pairwise_cons.mpr ⟨?_, ih _ _⟩
    intro t later
    have above := (bounds_of_mem_sites tall gapped later).1
    rw [Site.bottom]
    linarith

end

/-- The room that a node takes in its column. -/
def occupied (geometry : Geometry ℚ) (n : Node ℚ) : Set ℚ :=
  Set.Icc n.position.y (n.position.y + geometry.nodeHeight)

theorem disjoint_occupied {m n : Node ℚ}
    (above : m.position.y + geometry.nodeHeight < n.position.y) :
    Disjoint (geometry.occupied m) (geometry.occupied n) := by
  rw [Set.disjoint_left]
  intro y upper lower
  exact absurd (upper.2.trans_lt above) (not_lt.mpr lower.1)

/-- Nodes of one column do not meet. -/
def Clear (geometry : Geometry ℚ) (m n : Node ℚ) : Prop :=
  m.position.x = n.position.x → Disjoint (geometry.occupied m) (geometry.occupied n)

theorem filled_of_component (named : e.component? = some c) :
    e.Filled ↔ e.operands ≠ [] ∧ ∀ f ∈ e.operands, f.Filled := by
  cases e with
  | var name => cases named
  | not e => simp [operands]
  | gate g es => exact filled_gate

/-- A gate of a part stands at a level of its own, and every level leaves room for its operands. -/
theorem column_of_mem_gates (filled : e.Filled) : ∀ x y next,
    ∀ n ∈ (geometry.place x y next e).gates, ∃ level : ℕ, level + 2 ≤ e.depth ∧
      n.position.x = x - level * geometry.horizontalSpacing := by
  induction e using induction_on_operands with
  | var name => exact fun _ _ _ _ listed => absurd listed List.not_mem_nil
  | component e c named ih =>
    obtain ⟨given, each⟩ := (filled_of_component named).mp filled
    intro x y next n listed
    rcases mem_gates_place named listed with ⟨t, site, operand, inner⟩ | rfl
    · obtain ⟨level, deep, column⟩ := ih _ operand (each _ operand) _ _ _ n inner
      have less := depth_lt_of_mem_operands named operand
      refine ⟨level + 1, by omega, ?_⟩
      rw [column]
      push_cast
      ring
    · obtain ⟨f, operand⟩ := List.exists_mem_of_ne_nil _ given
      have less := depth_lt_of_mem_operands named operand
      have positive : 1 ≤ f.depth := @extent_pos max f
      exact ⟨0, by omega, by simp [Node.gate]⟩

/-- The middle of a node is that of the room from the top of the first operand of a site to the
bottom of the last. -/
def Centred (geometry : Geometry ℚ) (n : Node ℚ) (s : Site) : Prop :=
  ∃ first last, (s.operands geometry).head? = some first ∧
    (s.operands geometry).getLast? = some last ∧
    n.position.y + geometry.nodeHeight / 2 = (first.top + last.bottom geometry) / 2

theorem centred_own {s : Site} (given : s.part.operands ≠ []) (x : ℚ) :
    geometry.Centred (.gate (gateId s.number) c ⟨x, s.top +
      span geometry.verticalSpacing (s.part.operands.map geometry.height) / 2 -
        geometry.nodeHeight / 2⟩) s := by
  obtain ⟨first, last, head, ending, top, bottom⟩ :=
    exists_ends_sites geometry given s.top (s.number + 1)
  refine ⟨first, last, head, ending, ?_⟩
  rw [top, bottom]
  simp only [Node.gate]
  ring

/-- Each gate is drawn for a site and centred on its operands. -/
theorem centred_of_mem_gates (filled : e.Filled) : ∀ x y next,
    ∀ n ∈ (geometry.place x y next e).gates, ∃ s, Site.Within geometry ⟨y, next, e⟩ s ∧
      n.id = gateId s.number ∧ geometry.Centred n s := by
  induction e using induction_on_operands with
  | var name => exact fun _ _ _ _ listed => absurd listed List.not_mem_nil
  | component e c named ih =>
    obtain ⟨given, each⟩ := (filled_of_component named).mp filled
    intro x y next n listed
    rcases mem_gates_place named listed with ⟨t, site, operand, inner⟩ | rfl
    · obtain ⟨s, within, centred⟩ := ih _ operand (each _ operand) _ _ _ n inner
      exact ⟨s, .operand site within, centred⟩
    · exact ⟨⟨y, next, e⟩, .self, rfl, centred_own given x⟩

/-- And each site of a gate has its gate. -/
theorem exists_gate_of_within {s u : Site} (within : Site.Within geometry s u)
    (filled : s.part.Filled) (named : u.part.component? = some c) (x : ℚ) :
    ∃ n ∈ (geometry.place x s.top s.number s.part).gates, n.id = gateId u.number ∧
      n.component? = some c ∧ geometry.Centred n u := by
  induction within generalizing x with
  | self =>
    obtain ⟨given, -⟩ := (filled_of_component named).mp filled
    rw [gates_place named]
    exact ⟨_, List.mem_append_right _ (List.mem_singleton_self _), rfl,
      Node.component?_gate _ _ _, centred_own given x⟩
  | operand site _ ih =>
    obtain ⟨k, composed⟩ := exists_component_of_mem_operands site
    obtain ⟨-, each⟩ := (filled_of_component composed).mp filled
    obtain ⟨n, inner, drawn⟩ := ih (each _ (mem_of_mem_sites site)) named
      (x - geometry.horizontalSpacing)
    exact ⟨n, gates_place_subset site x inner, drawn⟩

/-- The gates of stacked expressions, found by their numbers at the sites of the stack. -/
theorem exists_mem_sites_of_getElem? {es : List Expr} {part : Expr} {i : Nat}
    (found : (es.flatMap gates)[i]? = some part) (top : ℚ) (number : Nat) :
    ∃ t ∈ geometry.sites top number es, ∃ j, t.part.gates[j]? = some part ∧
      t.number + j = number + i := by
  induction es generalizing i top number with
  | nil => cases found
  | cons e es ih =>
    rw [List.flatMap_cons, List.getElem?_append] at found
    split at found
    · exact ⟨_, List.mem_cons_self, i, found, rfl⟩
    · obtain ⟨t, later, j, inner, same⟩ := ih found
        (top + (geometry.height e + geometry.verticalSpacing)) (number + e.gates.length)
      exact ⟨t, List.mem_cons_of_mem _ later, j, inner, by omega⟩

theorem exists_within_of_getElem? (e : Expr) : ∀ {part : Expr} {i : Nat},
    e.gates[i]? = some part → ∀ top number, ∃ s, Site.Within geometry ⟨top, number, e⟩ s ∧
      s.number = number + i ∧ s.part = part := by
  induction e using induction_on_operands with
  | var name => exact fun found => absurd found nofun
  | component e c named ih =>
    intro part i found top number
    rw [gates_of_component named] at found
    cases i with
    | zero =>
      obtain rfl := Option.some.inj found
      exact ⟨_, .self, rfl, rfl⟩
    | succ i =>
      obtain ⟨t, site, j, inner, same⟩ := exists_mem_sites_of_getElem? found top (number + 1)
      obtain ⟨s, within, numbered, own⟩ :=
        ih t.part (mem_of_mem_sites site) inner t.top t.number
      exact ⟨s, .operand site within, by omega, own⟩

section

variable (tall : 0 < geometry.nodeHeight) (gapped : 0 < geometry.verticalSpacing)

include tall gapped

/-- Operands that there are take at least a node, so a gate takes just what its operands take. -/
theorem height_eq_span (named : e.component? = some c) (given : e.operands ≠ []) :
    geometry.height e = span geometry.verticalSpacing (e.operands.map geometry.height) := by
  rw [geometry.height_of_component named]
  apply max_eq_left
  obtain ⟨f, es, shape⟩ := List.exists_cons_of_ne_nil given
  rw [shape]
  exact (geometry.nodeHeight_le_height f).trans (le_span_cons tall gapped f es)

theorem inside_of_mem_gates (filled : e.Filled) : ∀ x y next,
    ∀ n ∈ (geometry.place x y next e).gates, y ≤ n.position.y ∧
      n.position.y + geometry.nodeHeight ≤ y + geometry.height e := by
  induction e using induction_on_operands with
  | var name => exact fun _ _ _ _ listed => absurd listed List.not_mem_nil
  | component e c named ih =>
    obtain ⟨given, each⟩ := (filled_of_component named).mp filled
    have height := height_eq_span tall gapped named given
    have high := geometry.nodeHeight_le_height e
    intro x y next n listed
    rcases mem_gates_place named listed with ⟨t, site, operand, inner⟩ | rfl
    · obtain ⟨above, below⟩ := ih _ operand (each _ operand) _ _ _ n inner
      obtain ⟨top, bottom⟩ := bounds_of_mem_sites tall gapped site
      rw [Site.bottom] at bottom
      constructor <;> linarith
    · rw [← height]
      simp only [Node.gate]
      constructor <;> linarith

theorem pairwise_gates (wide : 0 < geometry.horizontalSpacing) (filled : e.Filled) : ∀ x y next,
    (geometry.place x y next e).gates.Pairwise geometry.Clear := by
  induction e using induction_on_operands with
  | var name => exact fun _ _ _ => .nil
  | component e c named ih =>
    obtain ⟨given, each⟩ := (filled_of_component named).mp filled
    intro x y next
    rw [gates_place named, List.pairwise_append, List.pairwise_flatMap]
    refine ⟨⟨?within, ?across⟩, List.pairwise_singleton _ _, ?own⟩
    case within =>
      intro t site
      have operand : t.part ∈ e.operands := mem_of_mem_sites site
      exact ih _ operand (each _ operand) _ _ _
    case across =>
      refine (pairwise_sites tall gapped _ _ _).imp_of_mem ?_
      intro s t site site' room m inner n inner' _
      have low := (inside_of_mem_gates tall gapped (each _ (mem_of_mem_sites site)) _ _ _ m inner).2
      have high := (inside_of_mem_gates tall gapped (each _ (mem_of_mem_sites site')) _ _ _ n inner').1
      rw [Site.bottom] at room
      exact disjoint_occupied (by linarith)
    case own =>
      -- what is drawn for an operand stands further left
      intro m inner n own column
      obtain ⟨t, site, inner⟩ := List.mem_flatMap.mp inner
      obtain ⟨level, -, left⟩ := column_of_mem_gates (each _ (mem_of_mem_sites site)) _ _ _ m inner
      rw [List.mem_singleton.mp own, left] at column
      have steps : 0 ≤ (level : ℚ) * geometry.horizontalSpacing := by positivity
      simp only [Node.gate] at column
      linarith

end

/-- An id of an input for one of the names, or of one of the gates in a column. -/
def StandsAt (gates : List (Node ℚ)) (names : List String) (x : ℚ) (id : String) : Prop :=
  (∃ name ∈ names, id = Node.inputId name) ∨ ∃ n ∈ gates, n.id = id ∧ n.position.x = x

theorem StandsAt.mono {gates more : List (Node ℚ)} {names others : List String} {x : ℚ} {id : String}
    (stands : StandsAt gates names x id) (within : gates ⊆ more) (known : names ⊆ others) :
    StandsAt more others x id := by
  rcases stands with ⟨name, leaf, same⟩ | ⟨n, listed, place⟩
  · exact .inl ⟨name, known leaf, same⟩
  · exact .inr ⟨n, within listed, place⟩

theorem exists_own_gate (geometry : Geometry ℚ) (named : e.component? = some c) (x y : ℚ) (next : Nat) :
    ∃ n ∈ (geometry.place x y next e).gates, n.id = gateId next ∧ n.position.x = x := by
  rw [gates_place named]
  exact ⟨_, List.mem_append_right _ (List.mem_singleton_self _), rfl, rfl⟩

theorem root_standsAt (e : Expr) (x y : ℚ) (next : Nat) :
    StandsAt (geometry.place x y next e).gates e.leaves x (geometry.place x y next e).root := by
  cases named : e.component? with
  | none =>
    cases e with
    | var name => exact .inl ⟨name, List.mem_singleton_self _, rfl⟩
    | not e | gate g es => cases named
  | some c =>
    have root : (geometry.place x y next e).root = gateId next := by
      rw [place_of_component geometry named, close]
    exact .inr (root ▸ exists_own_gate geometry named x y next)

/-- An edge enters a gate from an input or from the column left of it. -/
theorem standsAt_of_mem_edges (e : Expr) : ∀ x y next,
    ∀ edge ∈ (geometry.place x y next e).edges, ∃ target ∈ (geometry.place x y next e).gates,
      target.id = edge.target ∧ StandsAt (geometry.place x y next e).gates e.leaves
        (target.position.x - geometry.horizontalSpacing) edge.source := by
  induction e using induction_on_operands with
  | var name => exact fun _ _ _ _ listed => absurd listed List.not_mem_nil
  | component e c named ih =>
    intro x y next edge listed
    rw [place_of_component geometry named] at listed
    rcases mem_edges_placeAll geometry listed with none | ⟨t, site, drawn⟩
    · cases none
    have operand : t.part ∈ e.operands := mem_of_mem_sites site
    have within : (geometry.place (x - geometry.horizontalSpacing) t.top t.number t.part).gates ⊆
        (geometry.place x y next e).gates :=
      gates_place_subset (s := ⟨y, next, e⟩) site x
    have known : t.part.leaves ⊆ e.leaves := by
      intro name leaf
      rw [leaves_of_component named]
      exact List.mem_flatMap.mpr ⟨_, operand, leaf⟩
    rcases drawn with inner | ⟨place, rfl⟩
    · obtain ⟨target, drawn, entered, stands⟩ := ih _ operand _ _ _ edge inner
      exact ⟨target, within drawn, entered, stands.mono within known⟩
    · obtain ⟨target, drawn, entered, column⟩ := exists_own_gate geometry named x y next
      refine ⟨target, drawn, entered, ?_⟩
      rw [column]
      exact (root_standsAt t.part _ t.top t.number).mono within known

/-- What is placed for the whole of an expression. -/
def drawn (geometry : Geometry ℚ) (e : Expr) : Placed ℚ :=
  geometry.place (e.depth * geometry.horizontalSpacing) geometry.top 0 e

theorem nodes_draw (geometry : Geometry ℚ) (e : Expr) : ∃ output : Node ℚ,
    (geometry.draw e).nodes = geometry.inputsAt e.names ++ (geometry.drawn e).gates ++ [output] ∧
      output.id = outputId ∧ output.kind = .output ∧
      output.position.x = e.depth * geometry.horizontalSpacing + geometry.horizontalSpacing :=
  ⟨_, rfl, rfl, rfl, rfl⟩

theorem x_of_mem_inputsAt {names : List String} {n : Node ℚ}
    (listed : n ∈ geometry.inputsAt names) : n.position.x = 0 ∧ n.kind = .input := by
  obtain ⟨place, below, rfl⟩ := List.mem_mapIdx.mp listed
  exact ⟨Nat.cast_zero, rfl⟩

theorem exists_input (geometry : Geometry ℚ) {names : List String} {name : String}
    (listed : name ∈ names) : ∃ n ∈ geometry.inputsAt names, n.id = Node.inputId name := by
  obtain ⟨place, below, rfl⟩ := List.mem_iff_getElem.mp listed
  exact ⟨_, List.mem_mapIdx.mpr ⟨place, below, rfl⟩, rfl⟩

theorem pairwise_inputsAt (tall : 0 < geometry.nodeHeight) (gapped : 0 < geometry.verticalSpacing)
    (names : List String) : (geometry.inputsAt names).Pairwise geometry.Clear := by
  rw [List.pairwise_iff_getElem]
  intro i j below below' before _
  apply disjoint_occupied
  have steps : (i : ℚ) + 1 ≤ j := by exact_mod_cast before
  have step : (i + 1 : ℚ) * (geometry.nodeHeight + geometry.verticalSpacing) ≤
      j * (geometry.nodeHeight + geometry.verticalSpacing) :=
    mul_le_mul_of_nonneg_right steps (by linarith)
  simp only [inputsAt, List.getElem_mapIdx, Node.input]
  change (i : ℚ) * (geometry.nodeHeight + geometry.verticalSpacing) + geometry.nodeHeight <
    (j : ℚ) * (geometry.nodeHeight + geometry.verticalSpacing)
  linarith

/-- What stands at a column is drawn there or among the inputs, left of whatever is further right. -/
theorem exists_node_of_standsAt {x x' : ℚ} {id : String}
    (stands : StandsAt (geometry.drawn e).gates e.leaves x id) (positive : 0 < x') (further : x < x') :
    ∃ n ∈ (geometry.draw e).nodes, n.id = id ∧ n.position.x < x' := by
  obtain ⟨output, columns, -⟩ := nodes_draw geometry e
  rw [columns]
  rcases stands with ⟨name, leaf, rfl⟩ | ⟨n, listed, named, rfl⟩
  · obtain ⟨n, listed, named⟩ := exists_input geometry (mem_names.mpr leaf)
    refine ⟨n, List.mem_append_left _ (List.mem_append_left _ listed), named, ?_⟩
    rwa [(x_of_mem_inputsAt listed).1]
  · exact ⟨n, List.mem_append_left _ (List.mem_append_right _ listed), named, further⟩

section

variable (wide : 0 < geometry.horizontalSpacing) (filled : e.Filled)

include wide filled

/-- The gates of a drawing stand between the inputs and the output. -/
theorem column_bounds {n : Node ℚ} (listed : n ∈ (geometry.drawn e).gates) :
    0 < n.position.x ∧ n.position.x ≤ e.depth * geometry.horizontalSpacing := by
  obtain ⟨level, deep, column⟩ := column_of_mem_gates filled _ _ _ n listed
  have shallow : (level : ℚ) + 2 ≤ e.depth := by exact_mod_cast deep
  have steps : 0 ≤ (level : ℚ) * geometry.horizontalSpacing := by positivity
  have room := mul_le_mul_of_nonneg_right shallow wide.le
  rw [column]
  constructor <;> linarith

theorem pairwise_nodes_draw (tall : 0 < geometry.nodeHeight) (gapped : 0 < geometry.verticalSpacing) :
    (geometry.draw e).nodes.Pairwise geometry.Clear := by
  obtain ⟨output, columns, -, -, last⟩ := nodes_draw geometry e
  rw [columns, List.pairwise_append, List.pairwise_append]
  refine ⟨⟨pairwise_inputsAt tall gapped _, pairwise_gates tall gapped wide filled _ _ _, ?apart⟩,
    List.pairwise_singleton _ _, ?last⟩
  case apart =>
    intro m input n gate column
    have left := (x_of_mem_inputsAt input).1
    have right := (column_bounds wide filled gate).1
    linarith
  case last =>
    intro m before n own column
    rw [List.mem_singleton.mp own, last] at column
    have deep : (0 : ℚ) ≤ e.depth * geometry.horizontalSpacing := by positivity
    rcases List.mem_append.mp before with input | gate
    · have left := (x_of_mem_inputsAt input).1
      linarith
    · have right := (column_bounds wide filled gate).2
      linarith

theorem edges_rise {edge : Edge} (listed : edge ∈ (geometry.draw e).edges) :
    ∃ source ∈ (geometry.draw e).nodes, ∃ target ∈ (geometry.draw e).nodes,
      source.id = edge.source ∧ target.id = edge.target ∧ source.position.x < target.position.x := by
  obtain ⟨output, columns, named, -, last⟩ := nodes_draw geometry e
  rcases List.mem_append.mp listed with inner | own
  · obtain ⟨target, gate, entered, stands⟩ := standsAt_of_mem_edges e _ _ _ edge inner
    obtain ⟨source, found, left, before⟩ := exists_node_of_standsAt stands
      (column_bounds wide filled gate).1 (sub_lt_self _ wide)
    have member : target ∈ (geometry.draw e).nodes := by
      rw [columns]
      exact List.mem_append_left _ (List.mem_append_right _ gate)
    exact ⟨source, found, target, member, left, entered, before⟩
  · obtain rfl := List.mem_singleton.mp own
    have deep : (0 : ℚ) ≤ e.depth * geometry.horizontalSpacing := by positivity
    obtain ⟨source, found, left, before⟩ := exists_node_of_standsAt
      (root_standsAt e _ _ _) (add_pos_of_nonneg_of_pos deep wide) (lt_add_of_pos_right _ wide)
    have member : output ∈ (geometry.draw e).nodes := by
      rw [columns]
      exact List.mem_append_right _ (List.mem_singleton_self _)
    exact ⟨source, found, output, member, left, named, last ▸ before⟩

end

theorem node?_of_mem {α : Type} {c : Circuit α} (distinct : (c.nodes.map Node.id).Nodup) {n : Node α}
    (listed : n ∈ c.nodes) : c.node? n.id = some n := by
  have some : (c.node? n.id).isSome := by
    rw [Circuit.node?, List.find?_isSome]
    exact ⟨n, listed, by simp⟩
  obtain ⟨m, found⟩ := Option.isSome_iff_exists.mp some
  have named : m.id = n.id := by simpa using List.find?_some found
  rw [found, List.inj_on_of_nodup_map distinct (List.mem_of_find?_eq_some found) listed named]

theorem mem_gates_drawn {n : Node ℚ} :
    n ∈ (geometry.draw e).gates ↔ n ∈ (geometry.drawn e).gates := by
  obtain ⟨output, columns, -, final, -⟩ := nodes_draw geometry e
  constructor
  · intro listed
    obtain ⟨member, gate⟩ := List.mem_filter.mp listed
    rw [columns, List.mem_append, List.mem_append, List.mem_singleton] at member
    rcases member with (input | inner) | rfl
    · simp [(x_of_mem_inputsAt input).2] at gate
    · exact inner
    · simp [final] at gate
  · intro inner
    have kind := kind_of_mem_gates (draws_place geometry e _ _ _) n inner
    refine List.mem_filter.mpr ⟨?_, by simp [kind]⟩
    rw [columns]
    exact List.mem_append_left _ (List.mem_append_right _ inner)

end Geometry

open Switching.Geometry in
/-- In exact arithmetic and with sizes above zero, every edge of a layout leads to the right, two
nodes of one column leave each other their room, and every gate is centred on its operands, from the
top of the first footprint to the bottom of the last. Every gate of the folded expression is among
those drawn, at the site that has its number. -/
theorem Expr.layout_geometry {geometry : Geometry ℚ} {e : Expr} (tall : 0 < geometry.nodeHeight)
    (wide : 0 < geometry.horizontalSpacing) (gapped : 0 < geometry.verticalSpacing)
    (filled : e.Filled) :
    let c := e.layout geometry
    (∀ edge ∈ c.edges, ∃ source target, c.node? edge.source = some source ∧
      c.node? edge.target = some target ∧ source.position.x < target.position.x) ∧
    (c.nodes.Pairwise fun m n => m.position.x = n.position.x → Disjoint
      (Set.Icc m.position.y (m.position.y + geometry.nodeHeight))
      (Set.Icc n.position.y (n.position.y + geometry.nodeHeight))) ∧
    (∀ n ∈ c.gates, ∃ s first last, Site.Within geometry ⟨geometry.top, 0, e.foldGates⟩ s ∧
      n.id = s!"node-{s.number}" ∧ (s.operands geometry).head? = some first ∧
      (s.operands geometry).getLast? = some last ∧
      n.position.y + geometry.nodeHeight / 2 = (first.top + last.bottom geometry) / 2) ∧
    ∀ (j : Nat) part, e.foldGates.gates[j]? = some part →
      ∃ s first last, Site.Within geometry ⟨geometry.top, 0, e.foldGates⟩ s ∧ s.number = j ∧
        s.part = part ∧ (s.operands geometry).head? = some first ∧
        (s.operands geometry).getLast? = some last ∧
        ∃ n ∈ c.gates, n.id = s!"node-{j}" ∧ n.component? = part.component? ∧
          n.position.y + geometry.nodeHeight / 2 = (first.top + last.bottom geometry) / 2 := by
  intro c
  have whole := filled_foldGates.mpr filled
  refine ⟨?edges, pairwise_nodes_draw wide whole tall gapped, ?gates, ?sites⟩
  case edges =>
    intro edge listed
    obtain ⟨source, member, target, member', left, right, before⟩ := edges_rise wide whole listed
    have distinct := geometry.nodup_node_ids e.foldGates
    exact ⟨source, target, left ▸ node?_of_mem distinct member, right ▸ node?_of_mem distinct member',
      before⟩
  case gates =>
    intro n listed
    obtain ⟨s, within, named, first, last, centred⟩ :=
      centred_of_mem_gates whole _ _ _ n (mem_gates_drawn.mp listed)
    exact ⟨s, first, last, within, named, centred⟩
  case sites =>
    intro j part found
    obtain ⟨k, named⟩ := exists_component_of_mem_gates (List.mem_of_getElem? found)
    obtain ⟨s, within, number, rfl⟩ :
        ∃ s, Geometry.Site.Within geometry ⟨geometry.top, 0, e.foldGates⟩ s ∧
          s.number = 0 + j ∧ s.part = part :=
      exists_within_of_getElem? e.foldGates found geometry.top 0
    rw [Nat.zero_add] at number
    obtain ⟨n, drawn, id, component, first, last, head, ending, centred⟩ :=
      exists_gate_of_within within whole named (e.foldGates.depth * geometry.horizontalSpacing)
    exact ⟨s, first, last, within, number, rfl, head, ending, n, mem_gates_drawn.mpr drawn,
      number ▸ id, component.trans named.symm, centred⟩

theorem Expr.layout_geometry_of_uneven_branches :
    let geometry : Geometry ℚ := ⟨10, 1 / 2, 1 / 3, -7⟩
    let e := Expr.gate .or [.var "a", .gate .nand [.not (.gate .nor [.var "b", .var "1"]), .var "a"],
      .gate .xor [.var "c"], .not (.gate .and [.var "b", .not (.var "d"), .var "a"])]
    let c := e.layout geometry
    (0 < geometry.nodeHeight ∧ 0 < geometry.horizontalSpacing ∧ 0 < geometry.verticalSpacing ∧
      e.Filled) ∧
    (∀ edge ∈ c.edges, ∃ source target, c.node? edge.source = some source ∧
      c.node? edge.target = some target ∧ source.position.x < target.position.x) ∧
    (c.nodes.Pairwise fun m n => m.position.x = n.position.x → Disjoint
      (Set.Icc m.position.y (m.position.y + geometry.nodeHeight))
      (Set.Icc n.position.y (n.position.y + geometry.nodeHeight))) ∧
    (∀ n ∈ c.gates, ∃ s first last,
      Geometry.Site.Within geometry ⟨geometry.top, 0, e.foldGates⟩ s ∧
      n.id = s!"node-{s.number}" ∧ (s.operands geometry).head? = some first ∧
      (s.operands geometry).getLast? = some last ∧
      n.position.y + geometry.nodeHeight / 2 = (first.top + last.bottom geometry) / 2) ∧
    ∀ (j : Nat) part, e.foldGates.gates[j]? = some part →
      ∃ s first last, Geometry.Site.Within geometry ⟨geometry.top, 0, e.foldGates⟩ s ∧
        s.number = j ∧ s.part = part ∧ (s.operands geometry).head? = some first ∧
        (s.operands geometry).getLast? = some last ∧
        ∃ n ∈ c.gates, n.id = s!"node-{j}" ∧ n.component? = part.component? ∧
          n.position.y + geometry.nodeHeight / 2 = (first.top + last.bottom geometry) / 2 := by
  intro geometry e c
  have tall : 0 < geometry.nodeHeight := show (0 : ℚ) < 10 by norm_num
  have wide : 0 < geometry.horizontalSpacing := show (0 : ℚ) < 1 / 2 by norm_num
  have gapped : 0 < geometry.verticalSpacing := show (0 : ℚ) < 1 / 3 by norm_num
  have filled : e.Filled := by decide
  exact ⟨⟨tall, wide, gapped, filled⟩, Expr.layout_geometry tall wide gapped filled⟩

end Switching
