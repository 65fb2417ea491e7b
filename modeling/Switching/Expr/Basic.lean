import Switching.Assignment
import Switching.Component
import Switching.Names

/-! Boolean expressions: names, negations and gates over any number of
operands. The names `1` and `0` are constants; every other name takes its value
from a valuation. Functions on expressions that work from the operands up are
instances of `Expr.fold`. -/
namespace Switching

inductive Expr where
  | var (name : String)
  | not (operand : Expr)
  | gate (g : Gate) (operands : List Expr)
deriving Repr, Inhabited

namespace Expr

variable {α : Type}

mutual

/-- Computes a result from the results of the operands. -/
def fold (var : String → α) (not : α → α) (gate : Gate → List α → α) : Expr → α
  | .var name => var name
  | .not e => not (fold var not gate e)
  | .gate g es => gate g (foldAll var not gate es)

def foldAll (var : String → α) (not : α → α) (gate : Gate → List α → α) : List Expr → List α
  | [] => []
  | e :: es => fold var not gate e :: foldAll var not gate es

end

@[simp] theorem foldAll_eq_map (var : String → α) (not : α → α) (gate : Gate → List α → α)
    (es : List Expr) : foldAll var not gate es = es.map (fold var not gate) := by
  induction es with
  | nil => rfl
  | cons e es ih => simp [foldAll, ih]

@[elab_as_elim, induction_eliminator]
theorem induction {motive : Expr → Prop} (var : ∀ name, motive (.var name))
    (not : ∀ e, motive e → motive (.not e))
    (gate : ∀ g es, (∀ e ∈ es, motive e) → motive (.gate g es)) : ∀ e, motive e
  | .var name => var name
  | .not e => not e (induction var not gate e)
  | .gate g es => gate g es fun e _ => induction var not gate e

mutual

def decEq : (a b : Expr) → Decidable (a = b)
  | .var a, .var b => decidable_of_iff (a = b) (by simp)
  | .not a, .not b => match decEq a b with
    | .isTrue same => .isTrue (congrArg _ same)
    | .isFalse different => .isFalse fun same => different (not.inj same)
  | .gate g as, .gate h bs => match decEqAll as bs with
    | .isTrue same => decidable_of_iff (g = h) (by simp [same])
    | .isFalse different => .isFalse fun same => different (gate.inj same).2
  | .var _, .not _ | .var _, .gate .. | .not _, .var _ | .not _, .gate .. | .gate .., .var _
  | .gate .., .not _ => .isFalse nofun

def decEqAll : (as bs : List Expr) → Decidable (as = bs)
  | [], [] => .isTrue rfl
  | a :: as, b :: bs => match decEq a b, decEqAll as bs with
    | .isTrue same, .isTrue rest => .isTrue (by rw [same, rest])
    | .isFalse different, _ => .isFalse fun same => different (List.cons.inj same).1
    | _, .isFalse different => .isFalse fun same => different (List.cons.inj same).2
  | [], _ :: _ | _ :: _, [] => .isFalse nofun

end

instance : DecidableEq Expr := decEq

/-- The value of a constant's name. -/
def constantOf? (name : String) : Option Bool :=
  if name = "1" then some true else if name = "0" then some false else none

def constant (value : Bool) : Expr := .var (if value then "1" else "0")

/-- A valuation with the constants put right. -/
def nameValue (v : String → Bool) (name : String) : Bool := (constantOf? name).getD (v name)

def eval (v : String → Bool) : Expr → Bool := fold (nameValue v) Bool.not Gate.eval

/-- The number of nodes on a longest path from the root to a leaf. -/
def depth : Expr → Nat := fold (fun _ => 1) (· + 1) fun _ depths => depths.foldr max 0 + 1

/-- The number of nodes. -/
def size : Expr → Nat := fold (fun _ => 1) (· + 1) fun _ sizes => sizes.foldr (· + ·) 0 + 1

/-- The names at the leaves, from left to right. -/
def leaves : Expr → List String := fold (fun name => [name]) id fun _ => List.flatten

/-- All names in order, constants included. -/
def names (e : Expr) : List String := Names.ofList e.leaves

def isVariable (name : String) : Bool := (constantOf? name).isNone

/-- The names other than constants, in order. -/
def vars (e : Expr) : List String := Names.ofList (e.leaves.filter isVariable)

/-- The component that computes the root from its operands; a name has none. -/
def component? : Expr → Option Component
  | .var _ => none
  | .not _ => some .inverter
  | .gate g _ => some (.gate g)

def kindName (e : Expr) : String := e.component?.elim "VAR" Component.name

def operands : Expr → List Expr
  | .var _ => []
  | .not e => [e]
  | .gate _ es => es

def asVar? : Expr → Option String
  | .var name => some name
  | _ => none

def asNegatedVar? : Expr → Option String
  | .not e => e.asVar?
  | _ => none

def asConstant? (e : Expr) : Option Bool := e.asVar?.bind constantOf?

section

variable (v : String → Bool)

@[simp] theorem eval_var (name : String) : eval v (.var name) = nameValue v name := rfl

@[simp] theorem eval_not (e : Expr) : eval v (.not e) = !eval v e := rfl

@[simp] theorem eval_gate (g : Gate) (es : List Expr) :
    eval v (.gate g es) = g.eval (es.map (eval v)) := by
  simp [eval, fold]

@[simp] theorem constantOf?_one : constantOf? "1" = some true := rfl

@[simp] theorem constantOf?_zero : constantOf? "0" = some false := rfl

@[simp] theorem eval_constant (b : Bool) : eval v (constant b) = b := by
  cases b <;> simp [constant, nameValue]

end

@[simp] theorem depth_var (name : String) : depth (.var name) = 1 := rfl

@[simp] theorem depth_not (e : Expr) : depth (.not e) = depth e + 1 := rfl

@[simp] theorem depth_gate (g : Gate) (es : List Expr) :
    depth (.gate g es) = (es.map depth).foldr max 0 + 1 := by
  simp [depth, fold]

@[simp] theorem size_var (name : String) : size (.var name) = 1 := rfl

@[simp] theorem size_not (e : Expr) : size (.not e) = size e + 1 := rfl

@[simp] theorem size_gate (g : Gate) (es : List Expr) :
    size (.gate g es) = (es.map size).foldr (· + ·) 0 + 1 := by
  simp [size, fold]

@[simp] theorem leaves_var (name : String) : leaves (.var name) = [name] := rfl

@[simp] theorem leaves_not (e : Expr) : leaves (.not e) = leaves e := rfl

@[simp] theorem leaves_gate (g : Gate) (es : List Expr) :
    leaves (.gate g es) = es.flatMap leaves := by
  simp [leaves, fold, List.flatMap]

theorem mem_names {name : String} {e : Expr} : name ∈ e.names ↔ name ∈ e.leaves := by
  simp [names]

theorem mem_vars {name : String} {e : Expr} :
    name ∈ e.vars ↔ name ∈ e.leaves ∧ isVariable name := by
  simp [vars]

/-- Valuations that agree on the vars of an expression give it one value. -/
theorem eval_congr {v w : String → Bool} {e : Expr}
    (agree : ∀ name ∈ e.vars, v name = w name) : e.eval v = e.eval w := by
  induction e with
  | var name =>
    cases known : constantOf? name with
    | some b => simp [nameValue, known]
    | none => simpa [nameValue, known] using agree name (by simp [mem_vars, isVariable, known])
  | not e ih => simp [ih fun name h => agree name (by simpa [mem_vars] using h)]
  | gate g es ih =>
    have same : es.map (eval v) = es.map (eval w) := List.map_congr_left fun e he =>
      ih e he fun name h => agree name (by
        rw [mem_vars] at h ⊢
        exact ⟨by simpa using ⟨e, he, h.1⟩, h.2⟩)
    simp [same]

end Expr

end Switching
