import Switching.Proofs.Text.Seams

/-! Scanning is local. A character that is no letter or digit ends the word before it, begins none,
and stands for a token of its own or for nothing, so the texts on its two sides scan as they do
alone. Only the sign of a product may come between. -/
namespace Switching.Token

/-- Tokens of two texts that meet, with a product where an operand meets the next. -/
def meet (left right : List Token) : List Token := left ++ seam left right ++ right

theorem ofChars_append_outside (left right : List Char) {c : Char}
    (outside : c.isAlphanum = false) :
    ofChars (left ++ c :: right) =
      meet (meet (ofChars left) (ofChar? c).toList) (ofChars right) := by
  cases token : ofChar? c with
  | none =>
    rw [ofChars_append_blank left right outside token]
    simp [meet]
  | some t =>
    rw [ofChars_append_cons left right outside token]
    simp [meet, seam]

/-- Nothing crosses a character that is no letter or digit. The tokens are those of the texts on its
two sides and its own, if it has one, and a product stands where the last token before a seam ends
an operand and the first behind it starts one, and nowhere else. -/
theorem ofText_append_outside (left right : String) {c : Char} (outside : c.isAlphanum = false) :
    ofText (left ++ c.toString ++ right) =
      meet (meet (ofText left) (ofChar? c).toList) (ofText right) ∧
    ∀ before behind : List Token,
      let operandsMeet := (∃ a, before.getLast? = some a ∧ a.endsOperand) ∧
        ∃ b, behind.head? = some b ∧ b.startsOperand
      (operandsMeet → meet before behind = before ++ product :: behind) ∧
        (¬ operandsMeet → meet before behind = before ++ behind) := by
  constructor
  · have chars : (left ++ c.toString ++ right).toList = left.toList ++ c :: right.toList := by simp
    exact (congrArg ofChars chars).trans (ofChars_append_outside _ _ outside)
  · intro before behind operandsMeet
    have same : operandsMeet ↔
        (before.getLast?.any endsOperand && behind.head?.any startsOperand) = true := by
      simp only [operandsMeet, Bool.and_eq_true, Option.any_eq_true]
    constructor
    · intro together
      rw [meet, seam, if_pos (same.mp together), List.append_assoc, List.singleton_append]
    · intro apart
      rw [meet, seam, if_neg (mt same.mpr apart), List.append_nil]

/-- A letter beyond ASCII is dropped, but keeps a digit from joining the name before it. -/
theorem ofText_append_outside_at_dropped_letter :
    Char.isAlphanum 'é' = false ∧ ofChar? 'é' = none ∧
    ofText ("x1" ++ Char.toString 'é' ++ "0'") =
      meet (meet (ofText "x1") (ofChar? 'é').toList) (ofText "0'") ∧
    ofText "x1é0'" = [.var "x1", product, .var "0", .operator .postfixNot] := by
  have outside : Char.isAlphanum 'é' = false := by decide
  exact ⟨outside, rfl, (ofText_append_outside "x1" "0'" outside).1, rfl⟩

end Switching.Token
