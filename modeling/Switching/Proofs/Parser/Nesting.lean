import Switching.Proofs.Parser.Completeness
import Switching.Proofs.Parser.Sentences
import Switching.Proofs.Parser.Steps

/-! Reading inside a parenthesis. Tokens that are read alone run there over the operands and the
entries that wait outside exactly as they run alone: they take no operand from below, calls count
from higher up, and nothing waits across the parenthesis. So in parentheses, or as the arguments of
a call, they are as good as a name, even where they are no sentence. -/
namespace Switching

namespace Parser

/-- An entry with some operands below those that it was read over. -/
def Pending.raise (below : Nat) : Pending → Pending
  | .call g base => .call g (base + below)
  | entry => entry

/-- The stacks inside a parenthesis that was opened over others. -/
def Stacks.inside (s outer : Stacks) : Stacks where
  pending := s.pending.map (Pending.raise outer.operands.length) ++ .group :: outer.pending
  operands := s.operands ++ outer.operands

section

variable {afterOperand beforeParen : Bool} {s next last : Stacks} {t : Token}
  {ts : List Token} {op : Operator} {operands combined : List Expr} {precedence : Nat} {e : Expr}

theorem Combines.ok (combines : Combines op operands combined) :
    applyOperator op operands = .ok combined := by
  cases combines with
  | inverter kind | gate kind => simp only [applyOperator, kind]

theorem Applies.ok (applies : Applies precedence s next) : s.apply precedence = .ok next := by
  induction applies with
  | @stop s loose =>
    obtain ⟨pending, operands⟩ := s
    cases pending with
    | nil => rfl
    | cons entry rest =>
      cases entry with
      | group | call g base => rfl
      | operator op =>
        have waits : ¬ precedence ≤ op.precedence := Nat.not_le_of_lt (loose op rest rfl)
        simp only [Stacks.apply, applyPending, if_neg waits]
  | operator binds combines _ ih =>
    simp only [Stacks.apply, applyPending, if_pos binds, combines.ok]
    exact ih

theorem Combines.append (combines : Combines op operands combined) (below : List Expr) :
    Combines op (operands ++ below) (combined ++ below) := by
  cases combines with
  | inverter kind => exact .inverter kind
  | gate kind => exact .gate kind

theorem Applies.inside (applies : Applies precedence s next) (outer : Stacks) :
    Applies precedence (s.inside outer) (next.inside outer) := by
  induction applies with
  | @stop s loose =>
    refine .stop ?_
    obtain ⟨pending, operands⟩ := s
    intro op rest same
    cases pending with
    | nil => cases same
    | cons entry pending =>
      cases entry with
      | group | call g base => cases same
      | operator other =>
        cases same
        exact loose op pending rfl
  | operator binds combines _ ih => exact .operator binds (combines.append _) ih

/-- The operands that a call takes lie over as many as there were when it was opened. -/
theorem exists_arguments {base count : Nat} (counted : count = operands.length - base)
    (filled : count ≠ 0) : ∃ arguments below, arguments ≠ [] ∧ below.length = base ∧
      operands = arguments.reverse ++ below ∧
      arguments = (operands.take count).reverse ∧ below = operands.drop count := by
  refine ⟨(operands.take count).reverse, operands.drop count, ?_, ?_, ?_, rfl, rfl⟩
  · intro empty
    have none := congrArg List.length empty
    rw [List.length_reverse, List.length_take, List.length_nil] at none
    omega
  · rw [List.length_drop]
    omega
  · rw [List.reverse_reverse, List.take_append_drop]

theorem exists_open {pending : List Pending}
    (bare : ∀ g base rest, pending ≠ .call g base :: rest) : ∃ bound, Open bound pending := by
  cases pending with
  | nil => exact ⟨0, trivial⟩
  | cons entry rest =>
    cases entry with
    | group => exact ⟨0, trivial⟩
    | operator op => exact ⟨op.precedence + 1, Nat.lt_succ_self _⟩
    | call g base => exact absurd rfl (bare g base rest)

theorem step_inside (ok : s.step afterOperand beforeParen t = .ok next) (outer : Stacks) :
    (s.inside outer).step afterOperand beforeParen t = .ok (next.inside outer) := by
  cases steps_of_ok ok with
  | var | leftParen | prefixNot => rfl
  | @group pending operands applies bare =>
    have below : ∃ bound, Open bound
        (Stacks.inside ⟨pending, operands⟩ outer).pending := by
      apply exists_open
      intro g base rest
      cases pending with
      | nil => exact nofun
      | cons entry pending =>
        cases entry with
        | group | operator op => exact nofun
        | call g base => exact absurd rfl (bare g base pending)
    obtain ⟨bound, below⟩ := below
    exact Stacks.close_group (applies.inside outer).ok below
  | call applies counted filled =>
    obtain ⟨arguments, below, given, rfl, rfl, taken, left⟩ := exists_arguments counted filled
    rw [← taken, ← left]
    refine @Stacks.close_call _ _ (below ++ outer.operands) _ _ ?_ given
    rw [(applies.inside outer).ok]
    simp [Stacks.inside, Pending.raise]
  | comma applies => exact (applies.inside outer).ok
  | postfixNot combines =>
    have applied := (combines.append outer.operands).ok
    simp only [Stacks.step, Stacks.inside, applied]
    rfl
  | mark applies =>
    rw [Stacks.step, (applies.inside outer).ok]
    rfl
  | word infixed applies =>
    rw [Stacks.step, infixed, (applies.inside outer).ok]
    rfl
  | @openCall g called =>
    rw [Stacks.step, if_pos called]
    simp [Stacks.inside, Stacks.push, Pending.raise]
    rfl

/-- A run goes on over what waits outside until the parenthesis or the comma behind it. -/
theorem run_inside (ran : s.run afterOperand ts = .ok last) (outer : Stacks) {rest : List Token}
    (stop : rest.head? ≠ some .leftParen) :
    ∃ behind,
      (s.inside outer).run afterOperand (ts ++ rest) = (last.inside outer).run behind rest := by
  induction ts generalizing s afterOperand with
  | nil =>
    cases ran
    exact ⟨afterOperand, rfl⟩
  | cons t ts ih =>
    obtain ⟨next, stepped, ran⟩ := bind_eq_ok.mp ran
    have ahead : ((ts ++ rest).head? = some .leftParen) = (ts.head? = some .leftParen) := by
      cases ts with
      | nil => simpa using stop
      | cons u ts => rfl
    obtain ⟨behind, further⟩ := ih ran
    refine ⟨behind, ?_⟩
    rw [List.cons_append, Stacks.run_cons]
    simp only [ahead, step_inside stepped outer]
    exact further

/-- Behind an opening parenthesis the tokens leave these expressions, settled, to what follows. -/
def Fills (outer : Stacks) (ts rest : List Token) (es : List Expr) : Prop :=
  ∃ (behind : Bool) (last : Stacks),
    (outer.push .group).run false (ts ++ rest) = last.run behind rest ∧
      last.apply 0 = .ok ((outer.deliver es).push .group)

/-- What is read alone delivers its expression inside a parenthesis. -/
theorem fills_of_ofTokens (ok : Expr.ofTokens ts = .ok e) (outer : Stacks)
    (rest : List Token) (stop : rest.head? ≠ some .leftParen) : Fills outer ts rest [e] := by
  obtain ⟨last, ran, applies⟩ := applies_of_ofTokens ok
  obtain ⟨behind, run⟩ := run_inside ran outer stop
  exact ⟨behind, last.inside outer, run, (applies.inside outer).ok⟩

/-- In parentheses every list of tokens that is read alone is as good as a name. -/
theorem phraseRuns_group (ok : Expr.ofTokens ts = .ok e) :
    PhraseRuns .atom (.leftParen :: ts ++ [.rightParen]) [e] := by
  intro s tail start
  obtain ⟨behind, last, run, settled⟩ :=
    fills_of_ofTokens ok s (.rightParen :: tail) (by simp)
  refine ⟨s.deliver [e], ?_, rfl⟩
  calc s.run false (.leftParen :: ts ++ [.rightParen] ++ tail)
      = (s.push .group).run false (ts ++ .rightParen :: tail) := by
        simp only [List.cons_append, List.append_assoc, List.nil_append]
        rfl
    _ = last.close.bind fun next => next.run true tail := by rw [run]; rfl
    _ = (s.deliver [e]).run true tail := by rw [Stacks.close_group settled start]; rfl

/-- Arguments that are each read alone, up to the parenthesis behind the last. -/
theorem fills_arguments {lists : List (List Token)} {es : List Expr}
    (each : List.Forall₂ (fun ts e => Expr.ofTokens ts = .ok e) lists es) (given : lists ≠ [])
    (outer : Stacks) (tail : List Token) :
    Fills outer ([.comma].intercalate lists) (.rightParen :: tail) es := by
  induction each generalizing outer with
  | nil => exact absurd rfl given
  | @cons ts e lists es first rest ih =>
    cases rest with
    | nil =>
      rw [List.intercalate_singleton]
      exact fills_of_ofTokens first outer (.rightParen :: tail) (by simp)
    | @cons us f lists es second rest =>
      obtain ⟨behind, last, run, settled⟩ := fills_of_ofTokens first outer
        (.comma :: ([.comma].intercalate (us :: lists) ++ .rightParen :: tail)) (by simp)
      obtain ⟨behindLast, final, runRest, settledRest⟩ := ih (by simp) (outer.deliver [e])
      refine ⟨behindLast, final, ?_, ?_⟩
      · calc (outer.push .group).run false
              ([.comma].intercalate (ts :: us :: lists) ++ .rightParen :: tail)
            = last.run behind
                (.comma :: ([.comma].intercalate (us :: lists) ++ .rightParen :: tail)) := by
              rw [List.intercalate_cons_cons, ← run]
              simp
          _ = (last.apply 0).bind fun next => next.run false
                ([.comma].intercalate (us :: lists) ++ .rightParen :: tail) := rfl
          _ = final.run behindLast (.rightParen :: tail) := by rw [settled]; exact runRest
      · rw [settledRest]
        simp [Stacks.deliver, Stacks.push]

theorem phraseRuns_call {lists : List (List Token)} {es : List Expr} (g : Gate)
    (each : List.Forall₂ (fun ts e => Expr.ofTokens ts = .ok e) lists es) (given : lists ≠ []) :
    PhraseRuns .atom
      (.operator (.word g) :: .leftParen :: [.comma].intercalate lists ++ [.rightParen])
      [.gate g es] := by
  intro s tail _
  obtain ⟨behind, last, run, settled⟩ :=
    fills_arguments each given (s.push (.call g s.operands.length)) tail
  have operands : es ≠ [] := by
    rintro rfl
    exact given (List.forall₂_nil_right_iff.mp each)
  refine ⟨s.deliver [.gate g es], ?_, rfl⟩
  calc s.run false
        (.operator (.word g) :: .leftParen :: [.comma].intercalate lists ++ [.rightParen] ++ tail)
      = ((s.push (.call g s.operands.length)).push .group).run false
          ([.comma].intercalate lists ++ .rightParen :: tail) := by
        simp only [List.cons_append, List.append_assoc, List.nil_append]
        rfl
    _ = last.close.bind fun next => next.run true tail := by rw [run]; rfl
    _ = (s.deliver [.gate g es]).run true tail := by rw [Stacks.close_call settled operands]; rfl

theorem phraseRuns_gate {us : List Token} {f : Expr} {g : Gate} (left : PhraseRuns .atom ts [e])
    (right : PhraseRuns .atom us [f]) (gated : op.component = .gate g) :
    PhraseRuns .sum (ts ++ .operator op :: us) [.gate g [e, f]] := by
  rcases g.precedence_cases with level | level
  · have first : PhraseRuns .sum ts [e] := left.loosen (by decide) (by decide)
    have second : PhraseRuns .product us [f] := right.loosen (by decide) (by decide)
    exact run_gate first second gated level (by decide) (by decide)
  · have first : PhraseRuns .product ts [e] := left.loosen (by decide) (by decide)
    have second : PhraseRuns .factor us [f] := right.loosen (by decide) (by decide)
    have product : PhraseRuns .product (ts ++ .operator op :: us) [.gate g [e, f]] :=
      run_gate first second gated level (by decide) (by decide)
    exact product.loosen (by decide) (by decide)

end

end Parser

end Switching
