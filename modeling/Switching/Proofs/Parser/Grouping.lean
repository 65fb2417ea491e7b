import Mathlib.Order.Monotone.Defs
import Switching.Proofs.Parser.Conservation

/-! How far operators reach to their left. In a sentence without calls an operator takes all names
back to the last operator that binds looser, or to the parenthesis that is open. So the names of
left operands can be counted along the tokens, without reading them, and are those of the
expression that is read. Two parentheses that change one of the counts cannot be left out. -/
namespace Switching

namespace Token

/-- Neither a call, a comma nor a negation in front of its operand. -/
def isPlain : Token → Bool
  | .comma | .operator (.prefixNot _) | .operator (.word _) => false
  | _ => true

def names (ts : List Token) : Nat := (ts.filterMap name?).length

@[simp] theorem names_append (ts us : List Token) : names (ts ++ us) = names ts + names us := by
  simp [names]

@[simp] theorem names_operator (op : Operator) (ts : List Token) :
    names (.operator op :: ts) = names ts := rfl

@[simp] theorem names_leftParen (ts : List Token) : names (.leftParen :: ts) = names ts := rfl

end Token

namespace Expr

/-- The number of names in the left operand of every operator, from left to right. -/
def leftSizes : Expr → List Nat
  | .var _ => []
  | .not e => leftSizes e ++ [e.leaves.length]
  | .gate _ [l, r] => leftSizes l ++ l.leaves.length :: leftSizes r
  | .gate _ _ => []

end Expr

/-- For each precedence the names since the last operator below it, as far back as the innermost
open parenthesis; and the same for each outer parenthesis, as it was when the next was opened. -/
structure Tally where
  since : Nat → Nat
  outer : List (Nat → Nat)

namespace Tally

open Token

def start : Tally := ⟨fun _ => 0, []⟩

def next (s : Tally) : Token → Tally
  | .var _ => { s with since := fun k => s.since k + 1 }
  | .operator op => { s with since := fun k => if op.precedence < k then 0 else s.since k }
  | .leftParen => ⟨fun _ => 0, s.since :: s.outer⟩
  | .rightParen => ⟨fun k => s.outer.headD (fun _ => 0) k + s.since 0, s.outer.tail⟩
  | .comma => s

theorem next_rightParen (s : Tally) : s.next .rightParen =
    ⟨fun k => s.outer.headD (fun _ => 0) k + s.since 0, s.outer.tail⟩ := rfl

def run (s : Tally) (ts : List Token) : Tally := ts.foldl next s

def reach? (s : Tally) : Token → Option Nat
  | .operator op => some (s.since op.precedence)
  | _ => none

/-- The names to the left of each operator that it reaches. -/
def reaches (s : Tally) : List Token → List Nat
  | [] => []
  | t :: ts => (s.reach? t).toList ++ (s.next t).reaches ts

section

variable {s s' : Tally} {op : Operator}

@[simp] theorem run_cons (s : Tally) (t : Token) (ts : List Token) :
    s.run (t :: ts) = (s.next t).run ts := rfl

@[simp] theorem run_append (s : Tally) (ts us : List Token) :
    s.run (ts ++ us) = (s.run ts).run us := List.foldl_append

@[simp] theorem run_nil (s : Tally) : s.run [] = s := rfl

@[simp] theorem reaches_operator (s : Tally) (op : Operator) (ts : List Token) :
    s.reaches (.operator op :: ts) =
      s.since op.precedence :: (s.next (.operator op)).reaches ts := rfl

@[simp] theorem reaches_leftParen (s : Tally) (ts : List Token) :
    s.reaches (.leftParen :: ts) = (s.next .leftParen).reaches ts := rfl

@[simp] theorem reaches_rightParen (s : Tally) (ts : List Token) :
    s.reaches (.rightParen :: ts) = (s.next .rightParen).reaches ts := rfl

@[simp] theorem reaches_append (s : Tally) (ts us : List Token) :
    s.reaches (ts ++ us) = s.reaches ts ++ (s.run ts).reaches us := by
  induction ts generalizing s with
  | nil => rfl
  | cons t ts ih => simp [reaches, ih]

theorem length_reaches (s s' : Tally) (ts : List Token) :
    (s.reaches ts).length = (s'.reaches ts).length := by
  induction ts generalizing s s' with
  | nil => rfl
  | cons t ts ih =>
    have first : (s.reach? t).toList.length = (s'.reach? t).toList.length := by cases t <;> rfl
    rw [reaches, reaches, List.length_append, List.length_append, first, ih]

/-- What tokens that hold some names add at each precedence, up to a bound. -/
structure Adds (bound names : Nat) (s s' : Tally) : Prop where
  outer : s'.outer = s.outer
  most : ∀ k, s'.since k ≤ s.since k + names
  full : ∀ k ≤ bound, k ≤ 4 → s'.since k = s.since k + names

theorem Adds.mono {lower upper n : Nat} (adds : Adds upper n s s') (le : lower ≤ upper) :
    Adds lower n s s' :=
  ⟨adds.outer, adds.most, fun k small => adds.full k (Nat.le_trans small le)⟩

theorem Adds.operator {bound upper m n : Nat} {last : Tally} (left : Adds bound m s s')
    (right : Adds upper n (s'.next (.operator op)) last) (binds : bound ≤ op.precedence)
    (tighter : bound ≤ upper) : Adds bound (m + n) s last where
  outer := right.outer.trans left.outer
  most k := by
    have kept : (s'.next (.operator op)).since k ≤ s'.since k := by
      simp only [next]
      split <;> omega
    have first := left.most k
    have second := right.most k
    omega
  full k small le := by
    have kept : (s'.next (.operator op)).since k = s'.since k :=
      if_neg (Nat.not_lt_of_le (Nat.le_trans small binds))
    rw [right.full k (Nat.le_trans small tighter) le, kept, left.full k small le]
    omega

end

end Tally

section

open Token Tally

variable {s : Tally} {p : Phrase} {ts : List Token} {es : List Expr} {op : Operator} {g : Gate}

theorem precedence_of_gate (gated : op.component = .gate g) : op.precedence = g.precedence := by
  rw [Operator.precedence, gated]
  rfl

theorem Reads.leaves (read : Reads p ts es) : ts.filterMap name? = es.flatMap Expr.leaves := by
  induction read with
  | product _ ih | factor _ ih | postfixed _ ih | atom _ ih | argument _ ih => exact ih
  | sumGate _ _ _ _ ihLeft ihRight | productGate _ _ _ _ ihLeft ihRight
  | arguments _ _ ihLeft ihRight => simp [List.filterMap_cons, name?, ihLeft, ihRight]
  | prefixNot _ ih | postfixNot _ ih | group _ ih | call _ ih =>
    simp [List.filterMap_cons, name?, ih]
  | var => rfl

theorem Reads.names_eq {e : Expr} (read : Reads p ts [e]) : names ts = e.leaves.length := by
  rw [names, read.leaves, List.flatMap_singleton]

theorem Reads.names_pos (read : Reads p ts es) : 0 < names ts := by
  induction read with
  | product _ ih | factor _ ih | postfixed _ ih | atom _ ih | argument _ ih => exact ih
  | sumGate _ _ _ _ ih _ | productGate _ _ _ _ ih _ | arguments _ _ ih _ | postfixNot _ ih =>
    rw [names_append]
    exact Nat.add_pos_left ih _
  | prefixNot _ ih => exact ih
  | var => exact Nat.one_pos
  | group _ ih | call _ ih => simpa using Nat.add_pos_left ih _

theorem Reads.adds (read : Reads p ts es) (plain : ∀ t ∈ ts, t.isPlain) (s : Tally) :
    Adds p.bound (names ts) s (s.run ts) := by
  induction read generalizing s with
  | product _ ih | factor _ ih | argument _ ih => exact (ih plain s).mono (by decide)
  | postfixed _ ih | atom _ ih => exact ih plain s
  | sumGate _ gated between _ ihLeft ihRight | productGate _ gated between _ ihLeft ihRight =>
    rw [List.forall_mem_append, List.forall_mem_cons] at plain
    have binds := (precedence_of_gate gated).trans (Phrase.mem_gates_iff.mp between)
    rw [names_append, names_operator, Tally.run_append, Tally.run_cons]
    exact (ihLeft plain.1 s).operator (ihRight plain.2.2 _) (Nat.le_of_eq binds.symm) (by decide)
  | prefixNot _ _ => exact absurd (plain _ List.mem_cons_self) (by simp [isPlain])
  | @postfixNot ts _ _ ih =>
    rw [List.forall_mem_append] at plain
    have inner := ih plain.1 s
    rw [names_append, Tally.run_append]
    refine ⟨inner.outer, fun k => ?_, fun k small le => ?_⟩
    · have most := inner.most k
      simp only [Tally.run_cons, Tally.run_nil, next]
      split <;> omega
    · exact (if_neg (Nat.not_lt_of_le le)).trans (inner.full k small le)
  | var => exact ⟨rfl, fun k => Nat.le_refl _, fun k _ _ => rfl⟩
  | @group ts _ _ ih =>
    have inside : ∀ t ∈ ts, t.isPlain := fun t listed => plain t (by simp [listed])
    have inner := ih inside (s.next .leftParen)
    have all : ((s.next .leftParen).run ts).since 0 = 0 + names ts :=
      inner.full 0 (Nat.zero_le _) (Nat.zero_le _)
    have closed : s.run (.leftParen :: ts ++ [.rightParen]) =
        ⟨fun k => s.since k + names ts, s.outer⟩ := by
      rw [List.cons_append, Tally.run_cons, Tally.run_append]
      simp only [Tally.run_cons, Tally.run_nil, next_rightParen, inner.outer, all, Nat.zero_add]
      rfl
    rw [closed, names_append]
    exact ⟨rfl, fun k => Nat.le_refl _, fun k _ _ => rfl⟩
  | call _ _ => exact absurd (plain _ List.mem_cons_self) (by simp [isPlain])
  | arguments _ _ _ _ => exact absurd (plain .comma (by simp)) (by simp [isPlain])

/-- No name has been counted yet where an operator of a phrase would look for it. -/
def Tally.Fresh (bound : Nat) (s : Tally) : Prop := ∀ k, bound ≤ k ∨ 4 ≤ k → s.since k = 0

theorem Tally.fresh_start (bound : Nat) : start.Fresh bound := fun _ _ => rfl

theorem Tally.fresh_next {bound : Nat} (s : Tally) (above : op.precedence < bound)
    (small : op.precedence < 4) : (s.next (.operator op)).Fresh bound := by
  intro k above
  exact if_pos (by omega)

/-- An operator behind a phrase that it does not part reaches all names of it. -/
theorem Tally.Adds.reach {n : Nat} {s' : Tally} (adds : Adds op.precedence n s s')
    (fresh : s.Fresh op.precedence) (small : op.precedence ≤ 4) : s'.since op.precedence = n := by
  rw [adds.full _ (Nat.le_refl _) small, fresh _ (.inl (Nat.le_refl _)), Nat.zero_add]

theorem Reads.reaches (read : Reads p ts es) (plain : ∀ t ∈ ts, t.isPlain)
    (fresh : s.Fresh p.bound) :
    s.reaches ts = es.flatMap Expr.leftSizes ∧ ∀ n ∈ s.reaches ts, 0 < n := by
  induction read generalizing s with
  | product _ ih | factor _ ih | argument _ ih =>
    exact ih plain fun k above => fresh k (by simp only [Phrase.bound] at above ⊢; omega)
  | postfixed _ ih | atom _ ih => exact ih plain fresh
  | @sumGate ts us e f op g left gated between right ihLeft ihRight
  | @productGate ts us e f op g left gated between right ihLeft ihRight =>
    rw [List.forall_mem_append, List.forall_mem_cons] at plain
    have binds := (precedence_of_gate gated).trans (Phrase.mem_gates_iff.mp between)
    obtain ⟨first, positiveFirst⟩ := ihLeft plain.1 fresh
    obtain ⟨second, positiveSecond⟩ := ihRight plain.2.2
      ((s.run ts).fresh_next (by rw [binds]; decide) (by rw [binds]; decide))
    have adds : Adds op.precedence (names ts) s (s.run ts) := binds ▸ left.adds plain.1 s
    have reach := adds.reach (binds ▸ fresh) (by rw [binds]; decide)
    have total := left.names_eq
    rw [reaches_append, reaches_operator, reach]
    constructor
    · simp [first, second, total, Expr.leftSizes]
    · rw [List.forall_mem_append, List.forall_mem_cons]
      exact ⟨positiveFirst, left.names_pos, positiveSecond⟩
  | prefixNot _ _ => exact absurd (plain _ List.mem_cons_self) (by simp [isPlain])
  | @postfixNot ts _ read ih =>
    rw [List.forall_mem_append] at plain
    obtain ⟨inner, positive⟩ := ih plain.1 fresh
    have adds : Adds (Operator.precedence .postfixNot) (names ts) s (s.run ts) :=
      (read.adds plain.1 s).mono (by decide)
    have reach := adds.reach (fun k above => fresh k (.inr (above.elim id id))) (by decide)
    have total := read.names_eq
    rw [reaches_append, reaches_operator, reach]
    constructor
    · simp [inner, total, Expr.leftSizes, Tally.reaches]
    · rw [List.forall_mem_append, List.forall_mem_cons]
      exact ⟨positive, read.names_pos, by simp [Tally.reaches]⟩
  | var => exact ⟨rfl, by simp [Tally.reaches, reach?]⟩
  | @group ts _ _ ih =>
    have inside : ∀ t ∈ ts, t.isPlain := fun t listed => plain t (by simp [listed])
    have inner := ih inside (s := s.next .leftParen) fun _ _ => rfl
    rw [List.cons_append, reaches_leftParen, reaches_append, reaches_rightParen, Tally.reaches,
      List.append_nil]
    exact inner
  | call _ _ => exact absurd (plain _ List.mem_cons_self) (by simp [isPlain])
  | arguments _ _ _ _ => exact absurd (plain .comma (by simp)) (by simp [isPlain])

/-- Where more binds tighter, less is reached. -/
def Tally.Falls (s : Tally) : Prop := Antitone s.since ∧ ∀ f ∈ s.outer, Antitone f

theorem Tally.falls_start : start.Falls := ⟨antitone_const, nofun⟩

theorem Tally.Falls.next (falls : s.Falls) (t : Token) : (s.next t).Falls := by
  obtain ⟨own, outer⟩ := falls
  cases t with
  | var name => exact ⟨fun _ _ le => Nat.add_le_add_right (own le) 1, outer⟩
  | operator op =>
    refine ⟨fun k l le => ?_, outer⟩
    have fall := own le
    simp only [Tally.next]
    split <;> split <;> omega
  | leftParen => exact ⟨antitone_const, List.forall_mem_cons.mpr ⟨own, outer⟩⟩
  | rightParen =>
    refine ⟨fun k l le => Nat.add_le_add_right ?_ _, fun f listed => ?_⟩
    · cases shape : s.outer with
      | nil => exact Nat.le_refl _
      | cons f rest => exact outer f (by simp [shape]) le
    · exact outer f (List.mem_of_mem_tail listed)
  | comma => exact ⟨own, outer⟩

theorem Tally.Falls.run (falls : s.Falls) (ts : List Token) : (s.run ts).Falls := by
  induction ts generalizing s with
  | nil => exact falls
  | cons t ts ih => exact ih (falls.next t)

theorem separates_of_isPlain (plain : ∀ t ∈ ts, t.isPlain) (place : Place) :
    place.throughout Place.separates ts := by
  induction ts generalizing place with
  | nil => rfl
  | cons t ts ih =>
    rw [List.forall_mem_cons] at plain
    rw [Place.throughout_cons]
    refine ⟨?_, ih plain.2 _⟩
    match t, plain.1 with
    | .var _, _ | .leftParen, _ | .rightParen, _ | .operator .postfixNot, _
    | .operator (.mark _), _ => rfl

/-- Plain tokens that are read are a sentence. -/
theorem reads_of_ofTokens {e : Expr} (spaced : Place.start.throughout Place.apart ts)
    (plain : ∀ t ∈ ts, t.isPlain) (ok : Expr.ofTokens ts = .ok e) : Reads .sum ts [e] :=
  (Expr.reads_iff_ofTokens spaced e).mpr
    ⟨ok, separates_of_isPlain plain _, fun comma => absurd (plain _ comma) (by simp [isPlain])⟩

/-- A sum of two with an operator between them. -/
inductive Joined (op : Operator) : List Token → Prop
  | intro {left right e f h} : Reads .sum left [e] → Reads .sum right [f] →
      Reads .sum (left ++ .operator op :: right) [h] → Joined op (left ++ .operator op :: right)

section

variable {before inner behind : List Token} {e : Expr}
  (grouped : Reads .sum (before ++ (.leftParen :: inner ++ .rightParen :: behind)) [e])
  (bare : Reads .sum (before ++ (inner ++ behind)) [e])
  (plain : ∀ t ∈ before ++ (inner ++ behind), t.isPlain)

include grouped bare plain

/-- Where parentheses can be left out, the operators between them and those behind reach as far as
before. -/
theorem reaches_bare :
    ((start.run before).next .leftParen).reaches inner = (start.run before).reaches inner ∧
      ((((start.run before).next .leftParen).run inner).next .rightParen).reaches behind =
        ((start.run before).run inner).reaches behind := by
  have plainGrouped : ∀ t ∈ before ++ (.leftParen :: inner ++ .rightParen :: behind),
      t.isPlain := by
    simp only [List.mem_append, List.mem_cons] at plain ⊢
    rintro t (listed | (rfl | listed) | rfl | listed)
    · exact plain t (.inl listed)
    · rfl
    · exact plain t (.inr (.inl listed))
    · rfl
    · exact plain t (.inr (.inr listed))
  have same := (grouped.reaches plainGrouped (fresh_start _)).1.trans
    (bare.reaches plain (fresh_start _)).1.symm
  simp only [List.cons_append, reaches_append, reaches_leftParen, reaches_rightParen,
    List.append_cancel_left_eq] at same
  exact List.append_inj same (Tally.length_reaches _ _ _)

/-- Parentheses stay if the operator behind them binds tighter than one between them. -/
theorem not_tighter {rest : List Token} {outer : Operator} (joined : Joined op inner)
    (follows : behind = .operator outer :: rest) : ¬ op.precedence < outer.precedence := by
  intro tighter
  obtain ⟨-, same⟩ := reaches_bare grouped bare plain
  cases joined with
  | @intro left right _ _ _ readLeft readRight _ =>
    have plainLeft : ∀ t ∈ left, t.isPlain := fun t listed => plain t (by simp [listed])
    have plainRight : ∀ t ∈ right, t.isPlain := fun t listed => plain t (by simp [listed])
    generalize start.run before = s at same
    have reached :
        (s.run (left ++ .operator op :: right)).since outer.precedence ≤ names right := by
      have hidden : ((s.run left).next (.operator op)).since outer.precedence = 0 := if_pos tighter
      have most := (readRight.adds plainRight ((s.run left).next (.operator op))).most
        outer.precedence
      rwa [hidden, Nat.zero_add, ← Tally.run_cons, ← Tally.run_append] at most
    have enclosed : Adds 0 (names left + names right) (s.next .leftParen)
        ((s.next .leftParen).run (left ++ .operator op :: right)) := by
      rw [Tally.run_append]
      exact ((readLeft.adds plainLeft _).mono (Nat.zero_le _)).operator
        ((readRight.adds plainRight _).mono (Nat.zero_le _)) (Nat.zero_le _) (Nat.le_refl _)
    have all : ((s.next .leftParen).run (left ++ .operator op :: right)).since 0 =
        0 + (names left + names right) := enclosed.full 0 (Nat.le_refl _) (Nat.zero_le _)
    rw [follows, reaches_operator, reaches_operator, next_rightParen, enclosed.outer, all] at same
    have first : s.since outer.precedence + (0 + (names left + names right)) =
        (s.run (left ++ .operator op :: right)).since outer.precedence := (List.cons.inj same).1
    have named := readLeft.names_pos
    omega

/-- Parentheses stay behind a gate if a sum stands between them. -/
theorem not_behind_gate {lead : List Token} {outer : Operator} (joined : Joined op inner)
    (sum : op.precedence = 2) (follows : before = lead ++ [.operator outer]) :
    outer.component ≠ .gate g := by
  intro gated
  obtain ⟨same, -⟩ := reaches_bare grouped bare plain
  have positive := (bare.reaches plain (fresh_start _)).2
  cases joined with
  | @intro left right _ _ _ readLeft readRight _ =>
    have inside : ∀ t ∈ left, t.isPlain := fun t listed => plain t (by simp [listed])
    simp only [reaches_append, reaches_operator] at same
    obtain ⟨-, same⟩ := List.append_inj same (Tally.length_reaches _ _ _)
    have same := (List.cons.inj same).1
    have small : 2 ≤ Phrase.sum.bound := Nat.le_refl 2
    rw [sum, (readLeft.adds inside _).full 2 small (by decide),
      (readLeft.adds inside _).full 2 small (by decide)] at same
    -- The gate in front has a left operand, and all of it would be reached.
    rw [follows, List.append_assoc, List.singleton_append, reaches_append,
      reaches_operator] at positive
    have operand := positive _ (List.mem_append_right _ List.mem_cons_self)
    have level : 2 ≤ outer.precedence := by
      rw [precedence_of_gate gated]
      rcases g.precedence_cases with two | three <;> omega
    have reached := (falls_start.run lead).1 level
    have kept : (start.run before).since 2 = (start.run lead).since 2 := by
      rw [follows, Tally.run_append]
      exact if_neg (Nat.not_lt_of_le level)
    rw [kept] at same
    have opened : ((start.run before).next .leftParen).since 2 = 0 := rfl
    omega

end

end

namespace Parser

section

variable {inner behind us vs : List Token} {e : Expr} {op : Operator} {g : Gate}

/-- Behind the first operand of a sum nothing of it is left to see, grouped or not. -/
theorem run_grouped (read : Reads .sum inner [e]) (gated : op.component = .gate g)
    (sum : g.precedence = 2) (behind : List Token) (s : Stacks) (start : Open 2 s.pending) :
    s.run false (.leftParen :: inner ++ .rightParen :: .operator op :: behind) =
      s.run false (inner ++ .operator op :: behind) := by
  have runs := phrase_runs read
  obtain ⟨s', run, settled⟩ := runs s (.operator op :: behind) start
  obtain ⟨s'', runGrouped, rfl⟩ :=
    run_group runs s (.operator op :: behind) (start.mono (by decide))
  rw [List.append_assoc] at runGrouped
  have runGrouped : s.run false (.leftParen :: inner ++ .rightParen :: .operator op :: behind) =
      (s.deliver [e]).run true (.operator op :: behind) := runGrouped
  have same : s'.apply 2 = (s.deliver [e]).apply 2 := settled 2 (Nat.le_refl 2) (by decide)
  rw [runGrouped, run, Stacks.run_infix gated, Stacks.run_infix gated, sum, same]

theorem run_behind_leftParen
    (same : ∀ s : Stacks, Open 2 s.pending → s.run false us = s.run false vs)
    (lead : List Token) (s : Stacks) (afterOperand : Bool) :
    s.run afterOperand (lead ++ .leftParen :: us) =
      s.run afterOperand (lead ++ .leftParen :: vs) := by
  induction lead generalizing s afterOperand with
  | nil => exact same (s.push .group) trivial
  | cons t lead ih =>
    have next : (lead ++ .leftParen :: us).head? = (lead ++ .leftParen :: vs).head? := by
      cases lead <;> rfl
    rw [List.cons_append, List.cons_append, Stacks.run_cons, Stacks.run_cons, next]
    exact congrArg _ (funext fun s => ih s t.endsOperand)

/-- Parentheses around the first operand of a sum can be left out. -/
theorem ofTokens_grouped {before : List Token}
    (opens : before = [] ∨ ∃ lead, before = lead ++ [.leftParen]) (read : Reads .sum inner [e])
    (gated : op.component = .gate g) (sum : g.precedence = 2) (behind : List Token) :
    Expr.ofTokens (before ++ (.leftParen :: inner ++ .rightParen :: .operator op :: behind)) =
      Expr.ofTokens (before ++ (inner ++ .operator op :: behind)) := by
  have same := run_grouped read gated sum behind
  rw [Expr.ofTokens, Expr.ofTokens]
  rcases opens with rfl | ⟨lead, rfl⟩
  · exact congrArg (Except.bind · Stacks.finish) (same ⟨[], []⟩ trivial)
  · rw [List.append_assoc, List.append_assoc]
    exact congrArg (Except.bind · Stacks.finish) (run_behind_leftParen same lead _ _)

end

end Parser

end Switching
