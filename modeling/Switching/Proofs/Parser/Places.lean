import Switching.Token.Place
import Switching.Token.Scan

/-! Names against the places for operands. A token at a wrong place leaves the
balance too low, since a product sign already stands wherever two operands would
meet. So counting names alone can show that every token is where it belongs. -/
namespace Switching

namespace Place

/-- Operands never meet. -/
def apart (p : Place) : List Token → Bool
  | t :: _ => !(p.afterOperand && t.startsOperand)
  | [] => true

/-- Whether a token may stand here among those of an expression, whatever is open. -/
def fits (p : Place) : List Token → Bool
  | [] => p.afterOperand
  | .leftParen :: _ => !p.afterOperand
  | .var _ :: _ | .operator (.prefixNot _) :: _ => !p.afterOperand && !p.afterCall
  | .operator (.word _) :: _ => !p.afterCall
  | .operator .postfixNot :: _ | .operator (.mark _) :: _ | .rightParen :: _ | .comma :: _ =>
    p.afterOperand

variable {p : Place} {t : Token} {rest ts : List Token}

theorem throughout_cons {may : Place → List Token → Bool} :
    p.throughout may (t :: rest) ↔ may p (t :: rest) ∧ (p.next t).throughout may rest := by
  rw [throughout, Bool.and_eq_true]

theorem apart_of_due (due : p.afterOperand = false) : apart p ts := by
  cases ts with
  | nil => rfl
  | cons t rest => rw [apart, due, Bool.false_and, Bool.not_false]

theorem throughout_apart_insertProducts (spaced : apart p ts) :
    p.throughout apart (Token.insertProducts ts) := by
  fun_induction Token.insertProducts ts generalizing p with
  | case1 a b rest between ih =>
    rw [Bool.and_eq_true] at between
    simp only [throughout_cons]
    refine ⟨spaced, ?_, ih (apart_of_due rfl)⟩
    simp [apart, Token.product, Token.startsOperand]
  | case2 a b rest other ih =>
    rw [throughout_cons]
    refine ⟨spaced, ih ?_⟩
    rw [apart, afterOperand_next, Bool.not_eq_true']
    exact Bool.of_not_eq_true other
  | case3 ts short =>
    match ts, short with
    | [], _ => rfl
    | [t], _ => simpa [throughout, apart] using spaced
    | a :: b :: rest, short => exact absurd rfl (short a b rest)

/-- What a token adds to the operands is no more than what has ended behind it. -/
theorem weight_le (spaced : apart p (t :: rest)) (separate : separates p (t :: rest))
    (beforeParen : Bool) :
    t.weight p.afterOperand beforeParen + p.afterOperand.toInt ≤ t.endsOperand.toInt := by
  obtain ⟨afterOperand, afterCall, opened⟩ := p
  rcases t with _ | (_ | _ | _ | _) | _ | _ | _ <;> cases afterOperand <;> cases beforeParen <;>
    simp_all [apart, separates, Token.weight, Token.endsOperand, Token.startsOperand, Bool.toInt]

theorem fits_of_weight_eq (spaced : apart p (t :: rest)) (separate : separates p (t :: rest))
    (called : p.afterCall → t = .leftParen)
    (equal : t.weight p.afterOperand (rest.head? = some .leftParen) + p.afterOperand.toInt =
      t.endsOperand.toInt) :
    fits p (t :: rest) ∧ ((p.next t).afterCall → rest.head? = some .leftParen) := by
  obtain ⟨afterOperand, afterCall, opened⟩ := p
  rcases t with _ | (_ | _ | _ | _) | _ | _ | _ <;> cases afterOperand <;> cases afterCall <;>
    simp_all [apart, fits, next, separates, Token.weight, Token.endsOperand, Token.startsOperand,
      Bool.toInt]

theorem balance_le (spaced : p.throughout apart ts) (separate : p.throughout separates ts) :
    Token.balance p.afterOperand ts + p.afterOperand.toInt ≤ 1 := by
  induction ts generalizing p with
  | nil => cases ended : p.afterOperand <;> simp [Token.balance]
  | cons t rest ih =>
    rw [throughout_cons] at spaced separate
    have here := weight_le spaced.1 separate.1 (rest.head? = some .leftParen)
    have further := ih spaced.2 separate.2
    rw [afterOperand_next] at further
    rw [Token.balance]
    omega

/-- A balance of one leaves no token at a wrong place. -/
theorem fits_of_balance (spaced : p.throughout apart ts) (separate : p.throughout separates ts)
    (called : p.afterCall → ts.head? = some .leftParen)
    (full : Token.balance p.afterOperand ts + p.afterOperand.toInt = 1) : p.throughout fits ts := by
  induction ts generalizing p with
  | nil => cases ended : p.afterOperand <;> simp_all [throughout, fits, Token.balance]
  | cons t rest ih =>
    rw [throughout_cons] at spaced separate ⊢
    have here := weight_le spaced.1 separate.1 (rest.head? = some .leftParen)
    have further := balance_le spaced.2 separate.2
    rw [afterOperand_next] at further
    rw [Token.balance] at full
    obtain ⟨fit, calls⟩ := fits_of_weight_eq spaced.1 separate.1
      (fun call => Option.some.inj (called call)) (by omega)
    refine ⟨fit, ih spaced.2 separate.2 calls ?_⟩
    rw [afterOperand_next]
    omega

end Place

end Switching
