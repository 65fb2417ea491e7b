import Mathlib.Data.List.Basic
import Switching.Proofs.Parser.Places
import Switching.Token.Grammar

/-! The sentences of the grammar by the places of their tokens. Every token of a
sentence fits its place, and tokens that fit and whose parentheses close are a
sentence. What has been read at a place is kept as what it still awaits: each
open parenthesis waits for arguments, each argument for a factor. -/
namespace Switching

namespace Reads

open Place Token

variable {p : Phrase} {ts : List Token} {es : List Expr}

theorem balance_gate {op : Operator} {g : Gate} (gated : op.component = .gate g)
    (rest : List Token) : balance true (.operator op :: rest) = -1 + balance false rest := by
  cases op with
  | postfixNot | prefixNot m => cases gated
  | mark m => rfl
  | word h => simp [balance, weight, endsOperand]

theorem separates_gate {op : Operator} {g : Gate} (gated : op.component = .gate g)
    (opened : List Bool) (rest : List Token) :
    throughout separates ⟨true, false, opened⟩ (.operator op :: rest) =
      throughout separates ⟨false, false, opened⟩ rest := by
  cases op with
  | postfixNot | prefixNot m => cases gated
  | mark m | word h => rfl

/-- A phrase counts for one operand, whatever follows it. -/
theorem balance_append (read : Reads p ts es) (rest : List Token) :
    balance false (ts ++ rest) = 1 + balance true rest := by
  induction read generalizing rest with
  | product _ ih | factor _ ih | postfixed _ ih | atom _ ih | argument _ ih => exact ih rest
  | sumGate _ gated _ _ ihLeft ihRight | productGate _ gated _ _ ihLeft ihRight =>
    rw [List.append_assoc, ihLeft, List.cons_append, balance_gate gated, ihRight]
    omega
  | prefixNot _ ih => rw [List.cons_append, balance_prefixNot, ih]
  | postfixNot _ ih => rw [List.append_assoc, ih, List.singleton_append, balance_postfixNot]
  | var => rfl
  | group _ ih =>
    rw [List.append_assoc, List.cons_append, balance_leftParen, ih, List.singleton_append,
      balance_rightParen]
  | call _ ih =>
    rw [List.append_assoc, List.cons_append, List.cons_append, balance_call, ih,
      List.singleton_append, balance_rightParen]
  | arguments _ _ ihFirst ihRest =>
    rw [List.append_assoc, ihFirst, List.cons_append, balance_comma, ihRest]
    omega

/-- Behind a phrase the places are those of an operand, with the same parentheses open. -/
theorem separates_append (read : Reads p ts es) {opened : List Bool}
    (within : p = .arguments → opened.head? = some true) (rest : List Token) :
    throughout separates ⟨false, false, opened⟩ (ts ++ rest) =
      throughout separates ⟨true, false, opened⟩ rest := by
  induction read generalizing opened rest with
  | product _ ih | factor _ ih | postfixed _ ih | atom _ ih | argument _ ih => exact ih nofun rest
  | sumGate _ gated _ _ ihLeft ihRight | productGate _ gated _ _ ihLeft ihRight =>
    rw [List.append_assoc, ihLeft nofun, List.cons_append, separates_gate gated, ihRight nofun]
  | prefixNot _ ih => exact ih nofun rest
  | postfixNot _ ih =>
    rw [List.append_assoc, ih nofun]
    rfl
  | var => rfl
  | group _ ih =>
    rw [List.append_assoc, List.cons_append, throughout, next, ih nofun]
    rfl
  | call _ ih =>
    rw [List.append_assoc, List.cons_append, List.cons_append, throughout, throughout, next, next,
      ih fun _ => rfl]
    rfl
  | @arguments _ us _ _ _ _ ihFirst ihRest =>
    have parted : throughout separates ⟨true, false, opened⟩ (.comma :: (us ++ rest)) =
      throughout separates ⟨false, false, opened⟩ (us ++ rest) := by
      simp [throughout, separates, within rfl, next, endsOperand]
    rw [List.append_assoc, ihFirst nofun, List.cons_append, parted, ihRest within]

theorem balance {e : Expr} (read : Reads .sum ts [e]) : Token.balance false ts = 1 := by
  have counted := read.balance_append []
  rwa [List.append_nil] at counted

theorem separates {e : Expr} (read : Reads .sum ts [e]) :
    start.throughout Place.separates ts := by
  have parted : throughout Place.separates start (ts ++ []) = true := read.separates_append nofun []
  rwa [List.append_nil] at parted

end Reads

namespace Place

/-- No parenthesis is closed that has not been opened, and none stays open. -/
def closes (p : Place) : List Token → Bool
  | [] => p.opened.isEmpty
  | .rightParen :: _ => !p.opened.isEmpty
  | _ => true

end Place

/-- A sum whose last product can still be prolonged. -/
inductive OpenSum : List Token → Prop
  | product {ts e} : Reads .product ts [e] → OpenSum ts
  | gate {ts us e f op g} : Reads .sum ts [e] → op.component = .gate g → g ∈ Phrase.sum.gates →
      Reads .product us [f] → OpenSum (ts ++ .operator op :: us)

/-- Any factor behind the tokens ends a sum. -/
def AwaitsFactor (ts : List Token) : Prop := ∀ us f, Reads .factor us [f] → OpenSum (ts ++ us)

/-- Any arguments behind the tokens end a list of arguments. -/
def AwaitsArguments (ts : List Token) : Prop :=
  ∀ us es, Reads .arguments us es → ∃ fs, Reads .arguments (ts ++ us) fs

/-- What has been read up to the innermost open parenthesis, and in a call up to its last comma. -/
inductive Inside : List Bool → List Token → Prop
  | top : Inside [] []
  | group {opened outer lead} : Inside opened outer → AwaitsFactor lead →
      Inside (false :: opened) (outer ++ lead ++ [.leftParen])
  | call {opened outer lead g arguments} : Inside opened outer → AwaitsFactor lead →
      AwaitsArguments arguments →
      Inside (true :: opened) (outer ++ lead ++ .operator (.word g) :: .leftParen :: arguments)

/-- What has been read up to a place of a sentence. -/
inductive Begun : Place → List Token → Prop
  | due {opened outer lead} : Inside opened outer → AwaitsFactor lead →
      Begun ⟨false, false, opened⟩ (outer ++ lead)
  | called {opened outer lead g} : Inside opened outer → AwaitsFactor lead →
      Begun ⟨false, true, opened⟩ (outer ++ lead ++ [.operator (.word g)])
  | ended {opened outer lead operand e} : Inside opened outer → AwaitsFactor lead →
      Reads .postfixed operand [e] → Begun ⟨true, false, opened⟩ (outer ++ lead ++ operand)

theorem Gate.precedence_cases (g : Gate) : g.precedence = 2 ∨ g.precedence = 3 := by
  cases g <;> simp [Gate.precedence]

section

variable {ts us : List Token} {e f : Expr} {op : Operator} {g : Gate}

theorem OpenSum.reads (read : OpenSum ts) : ∃ e, Reads .sum ts [e] := by
  cases read with
  | product read => exact ⟨_, .product read⟩
  | gate first gated between last => exact ⟨_, .sumGate first gated between last⟩

/-- A gate of either kind prolongs a sum, or its last product, by a factor. -/
theorem OpenSum.append (read : OpenSum ts) (gated : op.component = .gate g)
    (factor : Reads .factor us [f]) : OpenSum (ts ++ .operator op :: us) := by
  rcases Phrase.mem_gates_sum_or_product g with between | between
  · obtain ⟨e, sum⟩ := read.reads
    exact .gate sum gated between (.factor factor)
  · cases read with
    | product first => exact .product (.productGate first gated between factor)
    | gate first gated' between' last =>
      rw [List.append_assoc, List.cons_append]
      exact .gate first gated' between' (.productGate last gated between factor)

theorem awaitsFactor_nil : AwaitsFactor [] := fun _ _ factor => .product (.factor factor)

theorem awaitsArguments_nil : AwaitsArguments [] := fun _ es arguments => ⟨es, arguments⟩

theorem AwaitsFactor.prefixNot (awaits : AwaitsFactor ts) (m : NegationMark) :
    AwaitsFactor (ts ++ [.operator (.prefixNot m)]) := by
  intro us f factor
  rw [List.append_assoc]
  exact awaits _ _ (.prefixNot factor)

theorem AwaitsFactor.gate (awaits : AwaitsFactor ts) (operand : Reads .postfixed us [e])
    (gated : op.component = .gate g) : AwaitsFactor (ts ++ us ++ [.operator op]) := by
  intro more f factor
  rw [List.append_assoc]
  exact (awaits us e (.postfixed operand)).append gated factor

theorem AwaitsArguments.comma (awaits : AwaitsArguments ts) (argument : Reads .sum us [e]) :
    AwaitsArguments (ts ++ us ++ [.comma]) := by
  intro more es arguments
  rw [List.append_assoc, List.append_assoc]
  exact awaits _ _ (.arguments argument arguments)

variable {opened : List Bool} {outer lead operand done : List Token}

theorem Begun.openParen {p : Place} (begun : Begun p done) (due : p.afterOperand = false) :
    Begun (p.next .leftParen) (done ++ [.leftParen]) := by
  cases begun with
  | due inside awaits =>
    have opens := Begun.due (.group inside awaits) awaitsFactor_nil
    rwa [List.append_nil] at opens
  | @called _ _ _ g inside awaits =>
    have opens := Begun.due (.call (g := g) inside awaits awaitsArguments_nil) awaitsFactor_nil
    simpa [Place.next] using opens
  | ended => cases due

theorem Begun.closeParen (inside : Inside opened outer) (awaits : AwaitsFactor lead)
    (read : Reads .postfixed operand [e]) (enclosed : opened ≠ []) :
    Begun ⟨true, false, opened.tail⟩ (outer ++ lead ++ operand ++ [.rightParen]) := by
  obtain ⟨f, sum⟩ := (awaits _ _ (.postfixed read)).reads
  cases inside with
  | top => exact absurd rfl enclosed
  | group inside outerAwaits =>
    have closed := Begun.ended inside outerAwaits (.atom (.group sum))
    simpa using closed
  | @call _ _ _ g _ inside outerAwaits awaitsArguments =>
    obtain ⟨es, arguments⟩ := awaitsArguments _ _ (.argument sum)
    have closed := Begun.ended inside outerAwaits (.atom (.call (g := g) arguments))
    simpa using closed

theorem Begun.comma (inside : Inside opened outer) (awaits : AwaitsFactor lead)
    (read : Reads .postfixed operand [e]) (within : opened.head? = some true) :
    Begun ⟨false, false, opened⟩ (outer ++ lead ++ operand ++ [.comma]) := by
  obtain ⟨f, sum⟩ := (awaits _ _ (.postfixed read)).reads
  cases inside with
  | top | group _ _ => cases within
  | @call _ _ _ g _ inside outerAwaits awaitsArguments =>
    have parted := Begun.due (.call (g := g) inside outerAwaits (awaitsArguments.comma sum))
      awaitsFactor_nil
    simpa using parted

theorem Begun.gate (inside : Inside opened outer) (awaits : AwaitsFactor lead)
    (read : Reads .postfixed operand [e]) (gated : op.component = .gate g) :
    Begun ⟨false, false, opened⟩ (outer ++ lead ++ operand ++ [.operator op]) := by
  have due := Begun.due inside (awaits.gate read gated)
  simpa using due

/-- Each token that fits its place leads on to the next place of a sentence. -/
theorem Begun.step {p : Place} {t : Token} {rest : List Token} (begun : Begun p done)
    (fit : p.fits (t :: rest)) (separate : p.separates (t :: rest)) (closed : p.closes (t :: rest)) :
    Begun (p.next t) (done ++ [t]) := by
  match t with
  | .leftParen => exact begun.openParen (by simpa [Place.fits] using fit)
  | .var name =>
    cases begun with
    | due inside awaits => exact .ended inside awaits (.atom .var)
    | called | ended => cases fit
  | .operator (.prefixNot m) =>
    cases begun with
    | due inside awaits =>
      rw [List.append_assoc]
      exact .due inside (awaits.prefixNot m)
    | called | ended => cases fit
  | .operator (.word g) =>
    cases begun with
    | due inside awaits => exact .called inside awaits
    | called => cases fit
    | ended inside awaits read => exact .gate inside awaits read rfl
  | .operator (.mark m) =>
    cases begun with
    | due | called => cases fit
    | ended inside awaits read => exact .gate inside awaits read rfl
  | .operator .postfixNot =>
    cases begun with
    | due | called => cases fit
    | ended inside awaits read =>
      rw [List.append_assoc]
      exact .ended inside awaits (.postfixNot read)
  | .rightParen =>
    cases begun with
    | due | called => cases fit
    | ended inside awaits read =>
      exact .closeParen inside awaits read (by simpa [Place.closes] using closed)
  | .comma =>
    cases begun with
    | due | called => cases fit
    | ended inside awaits read =>
      exact .comma inside awaits read (by simpa [Place.separates] using separate)

theorem Begun.run {p : Place} (begun : Begun p done) (fit : p.throughout Place.fits ts)
    (separate : p.throughout Place.separates ts) (closed : p.throughout Place.closes ts) :
    ∃ e, Reads .sum (done ++ ts) [e] := by
  induction ts generalizing p done with
  | nil =>
    cases begun with
    | due | called => cases fit
    | ended inside awaits read =>
      cases inside with
      | top =>
        obtain ⟨f, sum⟩ := (awaits _ _ (.postfixed read)).reads
        exact ⟨f, by simpa using sum⟩
      | group | call => cases closed
  | cons t rest ih =>
    rw [Place.throughout_cons] at fit separate closed
    obtain ⟨e, read⟩ := ih (begun.step fit.1 separate.1 closed.1) fit.2 separate.2 closed.2
    exact ⟨e, by simpa using read⟩

theorem exists_reads (fit : Place.start.throughout Place.fits ts)
    (separate : Place.start.throughout Place.separates ts)
    (closed : Place.start.throughout Place.closes ts) : ∃ e, Reads .sum ts [e] :=
  Begun.run (.due .top awaitsFactor_nil) fit separate closed

end

end Switching
