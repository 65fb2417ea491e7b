import Switching.Expr.Basic

/-! Structural rules for negation, applied once from the operands up: a double
negation cancels, and De Morgan's law removes a negated product or sum whose
operands are all negated. -/
namespace Switching.Expr

/-- The operands with their negations removed, if there are any and all are negated. -/
def stripNegations? : List Expr → Option (List Expr)
  | [.not e] => some [e]
  | .not e :: rest => (stripNegations? rest).map (e :: ·)
  | _ => none

/-- Negates a rewritten expression. -/
def rewriteNot : Expr → Expr
  | .not e => e
  | .gate g es =>
    match g, stripNegations? es with
    | .and, some bare | .or, some bare => .gate g.dual bare
    | _, _ => .not (.gate g es)
  | e => .not e

/-- Puts a gate over rewritten operands. -/
def rewriteGate (g : Gate) (es : List Expr) : Expr :=
  match g, stripNegations? es with
  | .nand, some bare | .nor, some bare => .gate g.base.dual bare
  | _, _ => .gate g es

def rewrite : Expr → Expr := fold .var rewriteNot rewriteGate

@[simp] theorem rewrite_var (name : String) : rewrite (.var name) = .var name := rfl

@[simp] theorem rewrite_not (e : Expr) : rewrite (.not e) = rewriteNot (rewrite e) := rfl

@[simp] theorem rewrite_gate (g : Gate) (es : List Expr) :
    rewrite (.gate g es) = rewriteGate g (es.map rewrite) := by
  simp [rewrite, fold]

end Switching.Expr
