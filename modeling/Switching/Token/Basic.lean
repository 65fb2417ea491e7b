import Switching.Component

/-! Tokens of expression text. Negation is written before or after its operand;
a gate is written as a mark or as its name. -/
namespace Switching

inductive NegationMark where
  | bang | tilde
deriving DecidableEq, Repr

def NegationMark.char : NegationMark → Char
  | .bang => '!'
  | .tilde => '~'

inductive GateMark where
  | star | ampersand | plus | bar | caret | circledDot
deriving DecidableEq, Repr

namespace GateMark

def char : GateMark → Char
  | .star => '*'
  | .ampersand => '&'
  | .plus => '+'
  | .bar => '|'
  | .caret => '^'
  | .circledDot => '⊙'

def gate : GateMark → Gate
  | .star | .ampersand => .and
  | .plus | .bar => .or
  | .caret => .xor
  | .circledDot => .xnor

end GateMark

inductive Operator where
  | postfixNot
  | prefixNot (mark : NegationMark)
  | mark (mark : GateMark)
  | word (g : Gate)
deriving DecidableEq, Repr

namespace Operator

def component : Operator → Component
  | .postfixNot | .prefixNot _ => .inverter
  | .mark m => .gate m.gate
  | .word g => .gate g

def precedence (op : Operator) : Nat := op.component.precedence

/-- A mark as written; a word in upper case. -/
def text : Operator → String
  | .postfixNot => "'"
  | .prefixNot m => m.char.toString
  | .mark m => m.char.toString
  | .word g => g.name

def ofChar? : Char → Option Operator
  | '\'' => some .postfixNot
  | '!' => some (.prefixNot .bang)
  | '~' => some (.prefixNot .tilde)
  | '*' => some (.mark .star)
  | '&' => some (.mark .ampersand)
  | '+' => some (.mark .plus)
  | '|' => some (.mark .bar)
  | '^' => some (.mark .caret)
  | '⊙' => some (.mark .circledDot)
  | _ => none

end Operator

inductive Token where
  | var (name : String)
  | operator (op : Operator)
  | leftParen
  | rightParen
  | comma
deriving DecidableEq, Repr

namespace Token

/-- Joins operands that stand side by side. -/
def product : Token := .operator (.mark .star)

def text : Token → String
  | .var name => name
  | .operator op => op.text
  | .leftParen => "("
  | .rightParen => ")"
  | .comma => ","

def endsOperand : Token → Bool
  | .var _ | .rightParen | .operator .postfixNot => true
  | _ => false

/-- Negation marks in front of an operand do not count. -/
def startsOperand : Token → Bool
  | .var _ | .leftParen => true
  | _ => false

/-- The token of a character that stands outside a word. -/
def ofChar? : Char → Option Token
  | '(' => some .leftParen
  | ')' => some .rightParen
  | ',' => some .comma
  | '0' => some (.var "0")
  | '1' => some (.var "1")
  | c => (Operator.ofChar? c).map .operator

end Token

end Switching
