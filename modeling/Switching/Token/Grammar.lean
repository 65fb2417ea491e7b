import Switching.Expr.Basic
import Switching.Token.Basic

/-! The grammar of expression text, over tokens, with the expression that each
phrase denotes. Sums and products group to the left and negations behind an
operand apply before those in front of it. -/
namespace Switching

inductive Phrase where
  | sum | product | factor | postfixed | atom | arguments
deriving DecidableEq, Repr

/-- The gates that stand between the operands of a phrase. -/
def Phrase.gates : Phrase → List Gate
  | .sum => [.or, .nor, .xor, .xnor]
  | .product => [.and, .nand]
  | .factor | .postfixed | .atom | .arguments => []

theorem Phrase.mem_gates_sum_or_product (g : Gate) : g ∈ sum.gates ∨ g ∈ product.gates := by
  cases g <;> decide

/-- Which tokens are a phrase, and what it denotes: several expressions for the arguments of a
call, a single one for any other phrase. -/
inductive Reads : Phrase → List Token → List Expr → Prop
  | product {ts e} : Reads .product ts [e] → Reads .sum ts [e]
  | sumGate {ts us e f op g} : Reads .sum ts [e] → op.component = .gate g →
      g ∈ Phrase.sum.gates → Reads .product us [f] →
      Reads .sum (ts ++ .operator op :: us) [.gate g [e, f]]
  | factor {ts e} : Reads .factor ts [e] → Reads .product ts [e]
  | productGate {ts us e f op g} : Reads .product ts [e] → op.component = .gate g →
      g ∈ Phrase.product.gates → Reads .factor us [f] →
      Reads .product (ts ++ .operator op :: us) [.gate g [e, f]]
  | postfixed {ts e} : Reads .postfixed ts [e] → Reads .factor ts [e]
  | prefixNot {ts e m} : Reads .factor ts [e] →
      Reads .factor (.operator (.prefixNot m) :: ts) [.not e]
  | atom {ts e} : Reads .atom ts [e] → Reads .postfixed ts [e]
  | postfixNot {ts e} : Reads .postfixed ts [e] →
      Reads .postfixed (ts ++ [.operator .postfixNot]) [.not e]
  | var {name} : Reads .atom [.var name] [.var name]
  | group {ts e} : Reads .sum ts [e] → Reads .atom (.leftParen :: ts ++ [.rightParen]) [e]
  | call {g ts es} : Reads .arguments ts es →
      Reads .atom (.operator (.word g) :: .leftParen :: ts ++ [.rightParen]) [.gate g es]
  | argument {ts e} : Reads .sum ts [e] → Reads .arguments ts [e]
  | arguments {ts us e es} : Reads .sum ts [e] → Reads .arguments us es →
      Reads .arguments (ts ++ .comma :: us) (e :: es)

theorem Reads.ne_nil {p : Phrase} {ts : List Token} {es : List Expr} (read : Reads p ts es) :
    ts ≠ [] := by
  induction read with
  | product _ ih | factor _ ih | postfixed _ ih | atom _ ih | argument _ ih => exact ih
  | _ => simp

end Switching
