import Switching.Expr.Basic

/-! Recognizing gates that are spelled out, from the operands up: a negated
AND, OR or XOR becomes the complementary gate, and a sum of two products over
two literals that spells an exclusive sum becomes XOR or XNOR. -/
namespace Switching.Expr

/-- The first plain and the first negated name in a product, if it has both. -/
def mixedLiterals? (es : List Expr) : Option (String × String) :=
  match es.findSome? asVar?, es.findSome? asNegatedVar? with
  | some plain, some negated => some (plain, negated)
  | _, _ => none

/-- The names of two literals of one kind, in order. -/
def sortedNames? (read : Expr → Option String) (a b : Expr) : Option (String × String) :=
  match read a, read b with
  | some x, some y => some (if y < x then (y, x) else (x, y))
  | _, _ => none

/-- The XOR that a sum of two products spells, each with one name plain and one negated. -/
def spelledXor? (left right : List Expr) : Option Expr :=
  match mixedLiterals? left, mixedLiterals? right with
  | some (x, y), some (y', x') => if x = x' ∧ y = y' then some (.gate .xor [.var x, .var y]) else none
  | _, _ => none

/-- The XNOR that a product of names and a product of their negations spell together. -/
def spelledXnor? (a b c d : Expr) : Option Expr :=
  match (sortedNames? asVar? a b).or (sortedNames? asVar? c d),
      (sortedNames? asNegatedVar? a b).or (sortedNames? asNegatedVar? c d) with
  | some (x, y), some negated =>
    if (x, y) = negated then some (.gate .xnor [.var x, .var y]) else none
  | _, _ => none

def spelledExclusive? : List Expr → Option Expr
  | [.gate .and [a, b], .gate .and [c, d]] => (spelledXor? [a, b] [c, d]).or (spelledXnor? a b c d)
  | _ => none

/-- Negates a folded expression. -/
def foldNot : Expr → Expr
  | .gate .and es => .gate .nand es
  | .gate .or es => .gate .nor es
  | .gate .xor es => .gate .xnor es
  | e => .not e

/-- Puts a gate over folded operands. -/
def foldGate : Gate → List Expr → Expr
  | .or, es => (spelledExclusive? es).getD (.gate .or es)
  | g, es => .gate g es

def foldGates : Expr → Expr := fold .var foldNot foldGate

@[simp] theorem foldGates_var (name : String) : foldGates (.var name) = .var name := rfl

@[simp] theorem foldGates_not (e : Expr) : foldGates (.not e) = foldNot (foldGates e) := rfl

@[simp] theorem foldGates_gate (g : Gate) (es : List Expr) :
    foldGates (.gate g es) = foldGate g (es.map foldGates) := by
  simp [foldGates, fold]

end Switching.Expr
