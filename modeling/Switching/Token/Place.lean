import Switching.Token.Basic

/-! Where tokens stand: behind an operand or not, and between which parentheses.
Places are told from the tokens in front alone, without reading an expression. -/
namespace Switching

/-- Whether an operand or the word of a call has just ended, and which parentheses are open,
innermost first, each with whether it holds the arguments of a call. -/
structure Place where
  afterOperand : Bool
  afterCall : Bool
  opened : List Bool
deriving DecidableEq, Repr

namespace Place

def start : Place := ⟨false, false, []⟩

/-- The place behind a token. The word of a call does not stand behind an operand. -/
def next (p : Place) : Token → Place
  | .leftParen => ⟨false, false, p.afterCall :: p.opened⟩
  | .rightParen => ⟨true, false, p.opened.tail⟩
  | .operator (.word _) => ⟨false, !p.afterOperand, p.opened⟩
  | t => ⟨t.endsOperand, false, p.opened⟩

/-- Whether each token, with those behind it, may stand at its place, and the end of all at its. -/
def throughout (may : Place → List Token → Bool) (p : Place) : List Token → Bool
  | [] => may p []
  | t :: rest => may p (t :: rest) && throughout may (p.next t) rest

/-- No negation in front of an operand stands behind another, and a comma only directly between
the parentheses of a call. -/
def separates (p : Place) : List Token → Bool
  | .operator (.prefixNot _) :: _ => !p.afterOperand
  | .comma :: _ => p.opened.head? == some true
  | _ => true

@[simp] theorem afterOperand_next (p : Place) (t : Token) :
    (p.next t).afterOperand = t.endsOperand := by
  match t with
  | .var _ | .leftParen | .rightParen | .comma | .operator .postfixNot
  | .operator (.prefixNot _) | .operator (.mark _) | .operator (.word _) => rfl

end Place

namespace Token

/-- One for a name, one less for a comma or a gate between operands. The word of a call counts
for nothing. -/
def weight (afterOperand beforeParen : Bool) : Token → Int
  | .var _ => 1
  | .comma | .operator (.mark _) => -1
  | .operator (.word _) => if beforeParen && !afterOperand then 0 else -1
  | _ => 0

/-- The number of names less that of commas and of gates between operands. -/
def balance (afterOperand : Bool) : List Token → Int
  | [] => 0
  | t :: rest => t.weight afterOperand (rest.head? = some .leftParen) + balance t.endsOperand rest

section

variable (afterOperand : Bool) (rest : List Token)

@[simp] theorem balance_leftParen : balance afterOperand (.leftParen :: rest) = balance false rest :=
  Int.zero_add _

@[simp] theorem balance_rightParen :
    balance afterOperand (.rightParen :: rest) = balance true rest := Int.zero_add _

@[simp] theorem balance_postfixNot :
    balance afterOperand (.operator .postfixNot :: rest) = balance true rest := Int.zero_add _

@[simp] theorem balance_prefixNot (m : NegationMark) :
    balance afterOperand (.operator (.prefixNot m) :: rest) = balance false rest := Int.zero_add _

@[simp] theorem balance_comma :
    balance afterOperand (.comma :: rest) = -1 + balance false rest := rfl

@[simp] theorem balance_call (g : Gate) :
    balance false (.operator (.word g) :: .leftParen :: rest) = balance false rest := by
  rw [balance, endsOperand, balance_leftParen]
  · exact Int.zero_add _
  all_goals nofun

end

end Token

end Switching
