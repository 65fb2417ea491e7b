import Switching.Proofs.Parser.Nesting
import Switching.Proofs.Text.RoundTrip

/-! Text in parentheses. Nothing but the sign of a product crosses a parenthesis, a blank or a
comma, so the tokens of a bracketed text are those of the text alone, and every text that is read
can stand in the place of a name. -/
namespace Switching

namespace Token

variable {op : Operator} {word : String} {g : Gate}

/-- A text in parentheses. -/
def grouped (text : String) : String := "(" ++ text ++ ")"

theorem ofText_grouped (text : String) :
    ofText (grouped text) = .leftParen :: ofText text ++ [.rightParen] := by
  have chars : (grouped text).toList = Printer.Piece.parenthesized ⟨text.toList, .atom⟩ := by
    simp [grouped, Printer.Piece.parenthesized]
  exact (congrArg ofChars chars).trans (Printer.ofChars_parenthesized _)

/-- Nothing crosses an opening parenthesis but the sign of a product. -/
theorem ofText_append_grouped (left text : String) :
    ofText (left ++ grouped text) =
      ofText left ++ seam (ofText left) (ofText (grouped text)) ++ ofText (grouped text) := by
  have apart : scanAfter [] (left.toList ++ (grouped text).toList) =
      scanAfter [] left.toList ++ scanAfter [] (grouped text).toList := by
    apply scanAfter_append_of_stop
    intro c first
    obtain rfl : '(' = c := by simpa [grouped] using first
    exact not_prolongs_of_not_alphanum (by decide)
  exact (congrArg ofChars String.toList_append).trans (ofChars_append apart)

theorem ofText_append_blank (left right : String) :
    ofText (left ++ " " ++ right) =
      ofText left ++ seam (ofText left) (ofText right) ++ ofText right := by
  have chars : (left ++ " " ++ right).toList = left.toList ++ ' ' :: right.toList := by simp
  exact (congrArg ofChars chars).trans (ofChars_append_blank _ _ (by decide) rfl)

theorem ofText_append_quote (left : String) :
    ofText (left ++ "'") = ofText left ++ [.operator .postfixNot] :=
  (congrArg ofChars String.toList_append).trans (Printer.ofChars_quote left.toList)

theorem ofText_mark (m : GateMark) : ofText m.char.toString = [.operator (.mark m)] := by
  cases m <;> rfl

theorem ofText_negationMark (m : NegationMark) :
    ofText m.char.toString = [.operator (.prefixNot m)] := by
  cases m <;> rfl

theorem ofChars_intercalate (texts : List (List Char)) :
    ofChars ([','].intercalate texts) = [.comma].intercalate (texts.map ofChars) := by
  induction texts with
  | nil => rfl
  | cons text texts ih =>
    cases texts with
    | nil => rw [List.map_singleton, List.intercalate_singleton, List.intercalate_singleton]
    | cons other texts =>
      have apart := ofChars_append_cons text ([','].intercalate (other :: texts)) (c := ',')
        (t := .comma) (by decide) rfl
      rw [seam_of_not_start rfl, seam_of_not_end rfl, ih] at apart
      simpa [List.intercalate_cons_cons] using apart

theorem ofText_intercalate (texts : List String) :
    ofText (",".intercalate texts) = [.comma].intercalate (texts.map ofText) := by
  have chars : (",".intercalate texts).toList = [','].intercalate (texts.map String.toList) :=
    String.toList_intercalate
  refine (congrArg ofChars chars).trans ((ofChars_intercalate _).trans ?_)
  rw [List.map_map]
  rfl

/-- An operator that computes a gate neither ends an operand nor starts one. -/
theorem ofText_between (left right : String) (read : ofText word = [.operator op])
    (gated : op.component = .gate g) :
    ofText (left ++ " " ++ word ++ " " ++ right) = ofText left ++ .operator op :: ofText right := by
  have between : (Token.operator op).endsOperand = false := by
    cases op with
    | postfixNot => cases gated
    | prefixNot m | mark m | word h => rfl
  have starts : (Token.operator op).startsOperand = false := rfl
  rw [ofText_append_blank, ofText_append_blank, read]
  simp [seam, between, starts]

end Token

namespace Expr

open Switching.Parser Token

variable {u v word : String} {e f : Expr} {op : Operator} {g : Gate}

theorem parse_of_phraseRuns {text : String} {ts : List Token} (tokens : ofText text = ts)
    (runs : PhraseRuns .sum ts [e]) : parse text = .ok e := by
  rw [parse, tokens]
  exact ofTokens_of_phraseRuns runs

theorem phraseRuns_grouped (accepted : parse u = .ok e) :
    PhraseRuns .atom (ofText (grouped u)) [e] := by
  rw [ofText_grouped]
  exact phraseRuns_group accepted

theorem parse_grouped_between (left : parse u = .ok e) (right : parse v = .ok f)
    (read : ofText word = [.operator op]) (gated : op.component = .gate g) :
    parse (grouped u ++ " " ++ word ++ " " ++ grouped v) = .ok (.gate g [e, f]) :=
  parse_of_phraseRuns (ofText_between _ _ read gated)
    (phraseRuns_gate (phraseRuns_grouped left) (phraseRuns_grouped right) gated)

theorem parse_grouped_append (left : parse u = .ok e) (right : parse v = .ok f) :
    parse (grouped u ++ grouped v) = .ok (.gate .and [e, f]) := by
  have last : (ofText (grouped u)).getLast? = some .rightParen := by
    rw [ofText_grouped, List.getLast?_concat]
  have first : (ofText (grouped v)).head? = some .leftParen := by
    rw [ofText_grouped]
    rfl
  have tokens : ofText (grouped u ++ grouped v) =
      ofText (grouped u) ++ product :: ofText (grouped v) := by
    rw [ofText_append_grouped]
    simp [seam, last, first, endsOperand, startsOperand]
  exact parse_of_phraseRuns tokens
    (phraseRuns_gate (phraseRuns_grouped left) (phraseRuns_grouped right) rfl)

theorem parse_grouped_quote (accepted : parse u = .ok e) :
    parse (grouped u ++ "'") = .ok (.not e) := by
  have postfixed : PhraseRuns .postfixed (ofText (grouped u)) [e] := phraseRuns_grouped accepted
  exact parse_of_phraseRuns (ofText_append_quote _)
    ((run_postfixNot postfixed).loosen (by decide) (by decide))

theorem parse_mark_grouped (m : NegationMark) (accepted : parse u = .ok e) :
    parse (m.char.toString ++ grouped u) = .ok (.not e) := by
  have tokens : ofText (m.char.toString ++ grouped u) =
      .operator (.prefixNot m) :: ofText (grouped u) := by
    rw [ofText_append_grouped, ofText_negationMark, seam_of_not_end rfl]
    rfl
  have factor : PhraseRuns .factor (ofText (grouped u)) [e] :=
    (phraseRuns_grouped accepted).loosen (by decide) (by decide)
  exact parse_of_phraseRuns tokens ((run_prefixNot m factor).loosen (by decide) (by decide))

theorem parse_call {texts : List String} {es : List Expr}
    (each : List.Forall₂ (fun text e => parse text = .ok e) texts es) (given : texts ≠ [])
    (spelled : Gate.ofName? word = some g) :
    parse (word ++ grouped (",".intercalate texts)) = .ok (.gate g es) := by
  have tokens : ofText (word ++ grouped (",".intercalate texts)) = .operator (.word g) ::
      .leftParen :: [.comma].intercalate (texts.map ofText) ++ [.rightParen] := by
    rw [ofText_append_grouped, ofText_of_ofName? spelled, seam_of_not_end rfl, ofText_grouped,
      ofText_intercalate]
    rfl
  have lists : List.Forall₂ (fun ts e => ofTokens ts = .ok e) (texts.map ofText) es :=
    List.forall₂_map_left_iff.mpr each
  have call := phraseRuns_call g lists (by simpa using given)
  exact parse_of_phraseRuns tokens (call.loosen (by decide) (by decide))

/-- Every text that is read can be bracketed and put under a negation, between operands or into a
call, and is read there as the expression that it is alone, whatever it holds. -/
theorem parse_bracketed {texts : List String} {es : List Expr} (left : parse u = .ok e)
    (right : parse v = .ok f) (each : List.Forall₂ (fun text e => parse text = .ok e) texts es)
    (given : texts ≠ []) :
    parse (grouped u ++ grouped v) = .ok (.gate .and [e, f]) ∧
    (∀ m : GateMark, parse (grouped u ++ " " ++ m.char.toString ++ " " ++ grouped v) =
      .ok (.gate m.gate [e, f])) ∧
    (∀ word g, Gate.ofName? word = some g →
      parse (grouped u ++ " " ++ word ++ " " ++ grouped v) = .ok (.gate g [e, f]) ∧
      parse (word ++ grouped (",".intercalate texts)) = .ok (.gate g es)) ∧
    parse (grouped u ++ "'") = .ok (.not e) ∧
    ∀ m : NegationMark, parse (m.char.toString ++ grouped u) = .ok (.not e) := by
  refine ⟨parse_grouped_append left right, ?_, ?_, parse_grouped_quote left, ?_⟩
  · intro m
    exact parse_grouped_between left right (ofText_mark m) rfl
  · intro word g spelled
    exact ⟨parse_grouped_between left right (ofText_of_ofName? spelled) rfl,
      parse_call each given spelled⟩
  · intro m
    exact parse_mark_grouped m left

theorem parse_bracketed_beyond_sentences :
    let e := Expr.gate .or [.var "a", .var "b"]
    let f := Expr.not (.var "c")
    let h := Expr.gate .and [.var "x1", .var "y"]
    (parse "a,+b" = .ok e ∧ parse "c!" = .ok f ∧ parse "AND((x1,y))" = .ok h ∧
      Gate.ofName? "nOr" = some .nor) ∧
    parse (grouped "a,+b" ++ grouped "c!") = .ok (.gate .and [e, f]) ∧
    parse (grouped "a,+b" ++ " " ++ "⊙" ++ " " ++ grouped "c!") = .ok (.gate .xnor [e, f]) ∧
    parse (grouped "a,+b" ++ " " ++ "nOr" ++ " " ++ grouped "c!") = .ok (.gate .nor [e, f]) ∧
    parse ("nOr" ++ grouped (",".intercalate ["a,+b", "AND((x1,y))", "c!"])) =
      .ok (.gate .nor [e, h, f]) ∧
    parse (grouped "a,+b" ++ "'") = .ok (.not e) ∧ parse ("~" ++ grouped "a,+b") = .ok (.not e) := by
  intro e f h
  have first : parse "a,+b" = .ok e := rfl
  have second : parse "c!" = .ok f := rfl
  have third : parse "AND((x1,y))" = .ok h := rfl
  have word : Gate.ofName? "nOr" = some .nor := rfl
  obtain ⟨product, marks, words, quote, negations⟩ := parse_bracketed first second
    (.cons first (.cons third (.cons second .nil))) (List.cons_ne_nil _ _)
  exact ⟨⟨first, second, third, word⟩, product, marks .circledDot, (words _ _ word).1,
    (words _ _ word).2, quote, negations .tilde⟩

end Expr

end Switching
