import Mathlib.Data.List.Basic
import Switching.Expr.Printer

/-! What written text reads as. A mark joins operands from left to right, and
text written without parentheses inside text of the same mark adds its operands
to the outer ones, so a piece of text is outlined by its mark and all operands
of that mark. Regrouping them changes no value and no order of names. -/
namespace Switching

namespace Gate

/-- The gate between two operands, over any number of them. -/
def chain (g : Gate) (values : List Bool) : Bool :=
  values.foldr (fun a b => g.eval [a, b]) (g.eval [])

/-- Operands may be regrouped, and the empty chain is a unit. -/
structure Regroups (g : Gate) : Prop where
  assoc : ∀ a b c, g.eval [g.eval [a, b], c] = g.eval [a, g.eval [b, c]]
  unit_left : ∀ a, g.eval [g.eval [], a] = a
  unit_right : ∀ a, g.eval [a, g.eval []] = a

theorem chain_cons (g : Gate) (a : Bool) (values : List Bool) :
    g.chain (a :: values) = g.eval [a, g.chain values] := rfl

theorem Regroups.chain_singleton {g : Gate} (regroups : g.Regroups) (a : Bool) :
    g.chain [a] = a := regroups.unit_right a

theorem Regroups.chain_append {g : Gate} (regroups : g.Regroups) (as bs : List Bool) :
    g.chain (as ++ bs) = g.eval [g.chain as, g.chain bs] := by
  induction as with
  | nil => exact (regroups.unit_left _).symm
  | cons a as ih => rw [List.cons_append, chain_cons, ih, chain_cons, regroups.assoc]

theorem Regroups.foldl_eq {g : Gate} (regroups : g.Regroups) (a : Bool) (values : List Bool) :
    values.foldl (fun a b => g.eval [a, b]) a = g.eval [a, g.chain values] := by
  induction values generalizing a with
  | nil => exact (regroups.unit_right a).symm
  | cons b values ih => rw [List.foldl_cons, ih, chain_cons, regroups.assoc]

theorem chain_eq_eval {g : Gate} (plain : g.inverting = false) (values : List Bool) :
    g.chain values = g.eval values := by
  induction values with
  | nil => rfl
  | cons a values ih =>
    rw [chain_cons, ih]
    cases g <;> simp_all [inverting, eval]

end Gate

theorem GateMark.regroups (m : GateMark) : m.gate.Regroups := by
  constructor <;> cases m <;> decide

namespace Expr

/-- Further operands of a gate, each joined to all before it. -/
def nestOnto (g : Gate) (first : Expr) (rest : List Expr) : Expr :=
  rest.foldl (fun left right => .gate g [left, right]) first

def nest (g : Gate) : List Expr → Expr
  | [] => .gate g []
  | e :: es => nestOnto g e es

theorem eval_nestOnto (g : Gate) (v : String → Bool) (first : Expr) (rest : List Expr) :
    eval v (nestOnto g first rest) =
      (rest.map (eval v)).foldl (fun a b => g.eval [a, b]) (eval v first) := by
  induction rest generalizing first with
  | nil => rfl
  | cons e es ih =>
    have joined := ih (.gate g [first, e])
    rw [eval_gate] at joined
    exact joined

theorem eval_nest {g : Gate} (regroups : g.Regroups) (v : String → Bool) (es : List Expr) :
    eval v (nest g es) = g.chain (es.map (eval v)) := by
  cases es with
  | nil => simp [nest, Gate.chain]
  | cons e es => rw [nest, eval_nestOnto, regroups.foldl_eq, List.map_cons, Gate.chain_cons]

theorem leaves_nestOnto (g : Gate) (first : Expr) (rest : List Expr) :
    leaves (nestOnto g first rest) = leaves first ++ rest.flatMap leaves := by
  induction rest generalizing first with
  | nil => exact (List.append_nil _).symm
  | cons e es ih =>
    have joined := ih (.gate g [first, e])
    rw [leaves_gate] at joined
    simpa [nestOnto] using joined

theorem leaves_nest (g : Gate) (es : List Expr) : leaves (nest g es) = es.flatMap leaves := by
  cases es with
  | nil => rw [nest, leaves_gate]
  | cons e es => rw [nest, leaves_nestOnto, List.flatMap_cons]

/-- Puts its constant in place of every gate without operands. -/
def grounded : Expr → Expr :=
  fold .var .not fun g es => if es.isEmpty then .constant (g.eval []) else .gate g es

@[simp] theorem grounded_var (name : String) : grounded (.var name) = .var name := rfl

@[simp] theorem grounded_not (e : Expr) : grounded (.not e) = .not (grounded e) := rfl

@[simp] theorem grounded_gate (g : Gate) (es : List Expr) :
    grounded (.gate g es) =
      if es.isEmpty then .constant (g.eval []) else .gate g (es.map grounded) := by
  simp [grounded, fold]

end Expr

namespace Printer

/-- The gate that joins the operands of a piece; an atom has only one operand. -/
def Binding.gate : Binding → Gate
  | .sum mark => mark.gate
  | .atom | .product => .and

theorem Binding.regroups (b : Binding) : b.gate.Regroups := by
  cases b with
  | atom | product => exact GateMark.regroups .star
  | sum mark => exact mark.regroups

/-- What a piece of text reads as: the operands of its mark, from left to right. -/
structure Outline where
  binding : Binding
  operands : List Expr

namespace Outline

def expr (o : Outline) : Expr := .nest o.binding.gate o.operands

def atom (e : Expr) : Outline := ⟨.atom, [e]⟩

def negate (o : Outline) : Outline := atom (.not o.expr)

/-- The operands that a piece adds to those of a mark around it. -/
def operandsUnder (b : Binding) (o : Outline) : List Expr :=
  if o.binding = b then o.operands else [o.expr]

def join (b : Binding) (os : List Outline) : Outline := ⟨b, os.flatMap (operandsUnder b)⟩

@[simp] theorem expr_atom (e : Expr) : (atom e).expr = e := rfl

@[simp] theorem expr_negate (o : Outline) : o.negate.expr = .not o.expr := rfl

theorem eval_expr (v : String → Bool) (o : Outline) :
    o.expr.eval v = o.binding.gate.chain (o.operands.map (Expr.eval v)) :=
  Expr.eval_nest o.binding.regroups v o.operands

theorem leaves_expr (o : Outline) : o.expr.leaves = o.operands.flatMap Expr.leaves :=
  Expr.leaves_nest _ _

theorem chain_operandsUnder (v : String → Bool) (b : Binding) (o : Outline) :
    b.gate.chain ((o.operandsUnder b).map (Expr.eval v)) = o.expr.eval v := by
  by_cases same : o.binding = b
  · rw [operandsUnder, if_pos same, eval_expr, same]
  · rw [operandsUnder, if_neg same]
    exact b.regroups.chain_singleton _

theorem leaves_operandsUnder (b : Binding) (o : Outline) :
    (o.operandsUnder b).flatMap Expr.leaves = o.expr.leaves := by
  by_cases same : o.binding = b
  · rw [operandsUnder, if_pos same, leaves_expr]
  · rw [operandsUnder, if_neg same]
    exact List.flatMap_singleton _ _

theorem eval_join (v : String → Bool) (b : Binding) (os : List Outline) :
    (join b os).expr.eval v = b.gate.chain (os.map fun o => o.expr.eval v) := by
  rw [eval_expr, join]
  induction os with
  | nil => rfl
  | cons o os ih =>
    rw [List.flatMap_cons, List.map_append, b.regroups.chain_append, chain_operandsUnder, ih,
      List.map_cons, Gate.chain_cons]

theorem leaves_join (b : Binding) (os : List Outline) :
    (join b os).expr.leaves = os.flatMap fun o => o.expr.leaves := by
  rw [leaves_expr, join, List.flatMap_assoc]
  simp only [leaves_operandsUnder]

/-- What the writing of an expression and of its complement read as. -/
structure Pair where
  plain : Outline
  negated : Outline

def Pair.of (o : Outline) : Pair := ⟨o, o.negate⟩

def Pair.negate (p : Pair) : Pair := ⟨p.plain.negate, p.plain⟩

def gate (style : Style) (g : Gate) : List Pair → Outline
  | [] => atom (.constant (g.eval []))
  | [p] => if g.inverting then p.plain.negate else p.plain
  | ps => match g, style with
    | .and, _ => join .product (ps.map Pair.plain)
    | .or, _ => join (.sum .plus) (ps.map Pair.plain)
    | .xor, _ => join (.sum .caret) (ps.map Pair.plain)
    | .xnor, _ =>
      if ps.length = 2 then join (.sum .circledDot) (ps.map Pair.plain)
      else (join (.sum .caret) (ps.map Pair.plain)).negate
    | .nand, .compact => (join .product (ps.map Pair.plain)).negate
    | .nand, .expanded => join (.sum .plus) (ps.map Pair.negated)
    | .nor, .compact => (join (.sum .plus) (ps.map Pair.plain)).negate
    | .nor, .expanded => join .product (ps.map Pair.negated)

def pair (style : Style) : Expr → Pair :=
  Expr.fold (fun name => .of (atom (.var name))) Pair.negate fun g ps => .of (gate style g ps)

/-- The second outline is that of the complement. -/
def Pair.Complementary (v : String → Bool) (p : Pair) : Prop :=
  p.negated.expr.eval v = !p.plain.expr.eval v

theorem eval_join_plain (v : String → Bool) {b : Binding} (straight : b.gate.inverting = false)
    (ps : List Pair) :
    (join b (ps.map Pair.plain)).expr.eval v =
      b.gate.eval (ps.map fun p => p.plain.expr.eval v) := by
  rw [eval_join, Gate.chain_eq_eval straight, List.map_map]
  rfl

/-- Complements joined by the dual gate, by De Morgan's law. -/
theorem eval_join_negated (v : String → Bool) {b : Binding} {g : Gate} (dual : b.gate = g.dual)
    (straight : b.gate.inverting = false) (lawful : g.base ≠ .xor) {ps : List Pair}
    (complementary : ∀ p ∈ ps, p.Complementary v) :
    (join b (ps.map Pair.negated)).expr.eval v = !g.eval (ps.map fun p => p.plain.expr.eval v) := by
  have complements : (ps.map Pair.negated).map (fun o => o.expr.eval v) =
      (ps.map fun p => p.plain.expr.eval v).map not := by
    rw [List.map_map, List.map_map]
    exact List.map_congr_left complementary
  rw [eval_join, Gate.chain_eq_eval straight, complements, dual, Gate.eval_dual g lawful]

theorem eval_gate (v : String → Bool) (style : Style) (g : Gate) {ps : List Pair}
    (complementary : ∀ p ∈ ps, p.Complementary v) :
    (gate style g ps).expr.eval v = g.eval (ps.map fun p => p.plain.expr.eval v) := by
  match ps, complementary with
  | [], _ => simp [gate]
  | [p], _ => cases g <;> simp [gate, Gate.inverting, Gate.eval]
  | p :: q :: rest, complementary =>
    cases g with
    | and => exact eval_join_plain (b := .product) v rfl _
    | or => exact eval_join_plain (b := .sum .plus) v rfl _
    | xor => exact eval_join_plain (b := .sum .caret) v rfl _
    | xnor =>
      cases rest with
      | nil =>
        have two : ∀ a b, Gate.chain .xnor [a, b] = Gate.eval .xnor [a, b] := by decide
        exact (eval_join v (.sum .circledDot) [p.plain, q.plain]).trans (two _ _)
      | cons r rest => exact congrArg not (eval_join_plain (b := .sum .caret) v rfl _)
    | nand =>
      cases style with
      | compact => exact congrArg not (eval_join_plain (b := .product) v rfl _)
      | expanded =>
        exact eval_join_negated (b := .sum .plus) (g := .and) v rfl rfl (by decide) complementary
    | nor =>
      cases style with
      | compact => exact congrArg not (eval_join_plain (b := .sum .plus) v rfl _)
      | expanded =>
        exact eval_join_negated (b := .product) (g := .or) v rfl rfl (by decide) complementary

/-- Both outlines have the leaves of the expression. -/
def Pair.SameLeaves (p : Pair) : Prop := p.negated.expr.leaves = p.plain.expr.leaves

theorem leaves_gate (style : Style) (g : Gate) {ps : List Pair} (same : ∀ p ∈ ps, p.SameLeaves) :
    (gate style g ps).expr.leaves =
      if ps.isEmpty then (Expr.constant (g.eval [])).leaves
      else ps.flatMap fun p => p.plain.expr.leaves := by
  have plain (b : Binding) (ps : List Pair) : (join b (ps.map Pair.plain)).expr.leaves =
      ps.flatMap fun p => p.plain.expr.leaves := by
    rw [leaves_join, List.flatMap_map]
  have negated (b : Binding) : (join b (ps.map Pair.negated)).expr.leaves =
      ps.flatMap fun p => p.plain.expr.leaves := by
    rw [leaves_join, List.flatMap_map]
    exact List.flatMap_congr same
  match ps, negated with
  | [], _ => rfl
  | [p], _ => cases g <;> simp [gate, Gate.inverting]
  | p :: q :: rest, negated =>
    cases g with
    | and | or | xor => exact plain _ _
    | xnor =>
      cases rest with
      | nil => exact plain _ _
      | cons r rest => exact plain _ _
    | nand | nor =>
      cases style with
      | compact => exact plain _ _
      | expanded => exact negated _

theorem pair_gate (style : Style) (g : Gate) (es : List Expr) :
    pair style (.gate g es) = .of (gate style g (es.map (pair style))) := by
  simp [pair, Expr.fold]

theorem eval_pair (v : String → Bool) (style : Style) (e : Expr) :
    (pair style e).plain.expr.eval v = e.eval v ∧ (pair style e).Complementary v := by
  induction e with
  | var name => exact ⟨rfl, rfl⟩
  | not e ih =>
    refine ⟨congrArg not ih.1, ?_⟩
    exact (Bool.not_not _).symm
  | gate g es ih =>
    have complementary : ∀ p ∈ es.map (pair style), p.Complementary v := by
      intro p member
      obtain ⟨e, listed, rfl⟩ := List.mem_map.mp member
      exact (ih e listed).2
    rw [pair_gate]
    refine ⟨?_, rfl⟩
    rw [Expr.eval_gate, Pair.of, eval_gate v style g complementary, List.map_map]
    exact congrArg g.eval (List.map_congr_left fun e listed => (ih e listed).1)

theorem leaves_pair (style : Style) (e : Expr) :
    (pair style e).plain.expr.leaves = e.grounded.leaves ∧ (pair style e).SameLeaves := by
  induction e with
  | var name => exact ⟨rfl, rfl⟩
  | not e ih => exact ⟨ih.1, rfl⟩
  | gate g es ih =>
    have same : ∀ p ∈ es.map (pair style), p.SameLeaves := by
      intro p member
      obtain ⟨e, listed, rfl⟩ := List.mem_map.mp member
      exact (ih e listed).2
    rw [pair_gate]
    refine ⟨?_, rfl⟩
    rw [Expr.grounded_gate, Pair.of, leaves_gate style g same, List.isEmpty_map, apply_ite Expr.leaves,
      Expr.leaves_gate, List.flatMap_map, List.flatMap_map]
    exact congrArg _ (List.flatMap_congr fun e listed => (ih e listed).1)

end Outline

end Printer

namespace Expr

/-- What the written text of an expression is read back as. -/
def reread (style : Style) (e : Expr) : Expr := (Printer.Outline.pair style e).plain.expr

theorem eval_reread (v : String → Bool) (style : Style) (e : Expr) :
    (reread style e).eval v = e.eval v := (Printer.Outline.eval_pair v style e).1

theorem leaves_reread (style : Style) (e : Expr) : (reread style e).leaves = e.grounded.leaves :=
  (Printer.Outline.leaves_pair style e).1

end Expr

end Switching
