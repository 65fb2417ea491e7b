import Switching.Expr.Basic
import Switching.Token.Scan

/-! Reading expressions by operator precedence. Finished operands wait on one
stack; operators, open groups and open calls wait on another. Before a gate
waits, every waiting operator of at least its precedence is applied, so gates of
equal precedence group to the left. A call takes the operands that were finished
since it was opened. -/
namespace Switching

inductive ParseError where
  | emptyExpression
  | missingOperand (op : Operator)
  | unbalancedParenthesis
  | emptyArguments (g : Gate)
  | trailingInput (roots : Nat)
deriving DecidableEq, Repr

def ParseError.message : ParseError → String
  | .emptyExpression => "Empty expression"
  | .missingOperand op => s!"Invalid expression: missing operand for operator {op.text}"
  | .unbalancedParenthesis => "Invalid expression: unbalanced parentheses"
  | .emptyArguments g => s!"Invalid expression: {g.name}() needs at least one argument"
  | .trailingInput roots =>
    s!"Invalid expression at the end: {roots} expressions left without an operator"

namespace Parser

inductive Pending where
  | group
  | operator (op : Operator)
  | call (g : Gate) (base : Nat)
deriving DecidableEq, Repr

/-- Both stacks have their top at the head. -/
structure Stacks where
  pending : List Pending
  operands : List Expr

def applyOperator (op : Operator) (operands : List Expr) : Except ParseError (List Expr) :=
  match op.component, operands with
  | .inverter, e :: rest => .ok (.not e :: rest)
  | .gate g, right :: left :: rest => .ok (.gate g [left, right] :: rest)
  | _, _ => .error (.missingOperand op)

/-- Applies the waiting operators of at least a precedence, down to the innermost open
group or call. -/
def applyPending (precedence : Nat) : List Pending → List Expr → Except ParseError Stacks
  | .operator op :: pending, operands =>
    if precedence ≤ op.precedence then
      (applyOperator op operands).bind (applyPending precedence pending)
    else .ok ⟨.operator op :: pending, operands⟩
  | pending, operands => .ok ⟨pending, operands⟩

def Stacks.apply (s : Stacks) (precedence : Nat) : Except ParseError Stacks :=
  applyPending precedence s.pending s.operands

def Stacks.push (s : Stacks) (entry : Pending) : Stacks := { s with pending := entry :: s.pending }

def Stacks.close (s : Stacks) : Except ParseError Stacks := do
  let s ← s.apply 0
  match s.pending with
  | .group :: .call g base :: pending =>
    let count := s.operands.length - base
    if count = 0 then throw (.emptyArguments g)
    return ⟨pending, .gate g (s.operands.take count).reverse :: s.operands.drop count⟩
  | .group :: pending => return ⟨pending, s.operands⟩
  | _ => throw .unbalancedParenthesis

/-- Reads one token. A gate word before a parenthesis opens a call, unless an operand has
just ended and the word stands between operands. -/
def Stacks.step (s : Stacks) (afterOperand beforeParen : Bool) : Token → Except ParseError Stacks
  | .var name => return { s with operands := .var name :: s.operands }
  | .leftParen => return s.push .group
  | .rightParen => s.close
  | .comma => s.apply 0
  | .operator .postfixNot => return { s with operands := ← applyOperator .postfixNot s.operands }
  | .operator (.prefixNot m) => return s.push (.operator (.prefixNot m))
  | .operator (.mark m) => return (← s.apply m.gate.precedence).push (.operator (.mark m))
  | .operator (.word g) =>
    if beforeParen && !afterOperand then return s.push (.call g s.operands.length)
    else return (← s.apply g.precedence).push (.operator (.word g))

def Stacks.run (s : Stacks) (afterOperand : Bool) : List Token → Except ParseError Stacks
  | [] => return s
  | t :: rest => do (← s.step afterOperand (rest.head? = some .leftParen) t).run t.endsOperand rest

def Stacks.finish (s : Stacks) : Except ParseError Expr := do
  let s ← s.apply 0
  match s.pending, s.operands with
  | _ :: _, _ => throw .unbalancedParenthesis
  | [], [] => throw .emptyExpression
  | [], [e] => return e
  | [], operands => throw (.trailingInput operands.length)

end Parser

namespace Expr

def ofTokens (tokens : List Token) : Except ParseError Expr := do
  (← Parser.Stacks.run ⟨[], []⟩ false tokens).finish

def parse (text : String) : Except ParseError Expr := ofTokens (Token.ofText text)

end Expr

end Switching
