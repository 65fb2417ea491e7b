import Switching.Proofs.Text.RoundTrip

/-! The expressions that text gives back as they are. Written operands of one
mark are grouped to the left when they are read, so what is read has two
operands to a gate and no gate to the right of another of its kind; and of such
an expression nothing is regrouped. -/
namespace Switching

namespace Expr

/-- Gates that have a mark, over two operands each, grouped to the left where they are alike. -/
inductive Normal : Expr → Prop
  | var {name} : Token.isLegible name → Normal (.var name)
  | not {e} : Normal e → Normal (.not e)
  | gate {g left right} : g ∈ [Gate.and, .or, .xor, .xnor] → Normal left → Normal right →
      right.component? ≠ some (.gate g) → Normal (.gate g [left, right])

/-- An operand that may stand to the right of a gate. -/
def NormalUnder (g : Gate) (e : Expr) : Prop := e.Normal ∧ e.component? ≠ some (.gate g)

variable {e first : Expr} {g : Gate} {es rest : List Expr}

theorem Normal.legible (normal : e.Normal) : e.Legible := by
  induction normal with
  | var legible =>
    intro name leaf
    rwa [List.mem_singleton.mp leaf]
  | not _ ih => exact ih
  | @gate g left right _ _ _ _ ihLeft ihRight =>
    intro name leaf
    have either : name ∈ left.leaves ∨ name ∈ right.leaves := by simpa using leaf
    exact either.elim (ihLeft name) (ihRight name)

theorem normal_nestOnto (marked : g ∈ [Gate.and, .or, .xor, .xnor]) (start : first.Normal)
    (each : ∀ e ∈ rest, NormalUnder g e) : (nestOnto g first rest).Normal := by
  induction rest generalizing first with
  | nil => exact start
  | cons e rest ih =>
    rw [List.forall_mem_cons] at each
    exact ih (.gate marked start each.1.1 each.1.2) each.2

theorem component?_nestOnto (rooted : first.component? = some (.gate g)) (rest : List Expr) :
    (nestOnto g first rest).component? = some (.gate g) := by
  induction rest generalizing first with
  | nil => exact rooted
  | cons e rest ih => exact ih rfl

theorem component?_nest (several : 2 ≤ es.length) : (nest g es).component? = some (.gate g) := by
  match es, several with
  | _ :: _ :: rest, _ => exact component?_nestOnto rfl rest

theorem nest_concat (given : es ≠ []) (e : Expr) : nest g (es ++ [e]) = .gate g [nest g es, e] := by
  cases es with
  | nil => exact absurd rfl given
  | cons first rest => exact List.foldl_concat _ _ _ _

end Expr

namespace Printer

open Switching.Expr

/-- The bindings of text that has several operands. -/
def Binding.chains : List Binding := [.product, .sum .plus, .sum .caret, .sum .circledDot]

theorem Binding.gate_inj : ∀ b ∈ chains, ∀ c ∈ chains, b.gate = c.gate → b = c := by decide

theorem Binding.marked_gate : ∀ b ∈ chains, b.gate ∈ [Gate.and, .or, .xor, .xnor] := by decide

namespace Outline

/-- Outlines that read as normal expressions. -/
inductive Tidy : Outline → Prop
  | atom {e} : e.Normal → (∀ g, e.component? ≠ some (.gate g)) → Tidy (.atom e)
  | chain {b es} : b ∈ Binding.chains → 2 ≤ es.length → (∀ e ∈ es, NormalUnder b.gate e) →
      Tidy ⟨b, es⟩

variable {b : Binding} {o : Outline} {os : List Outline}

theorem Tidy.normal (tidy : o.Tidy) : o.expr.Normal := by
  cases tidy with
  | atom normal _ => exact normal
  | @chain b es joins several each =>
    match es, several, each with
    | e :: rest, _, each =>
      rw [List.forall_mem_cons] at each
      exact normal_nestOnto (b.marked_gate joins) each.1.1 each.2

theorem Tidy.operandsUnder_eq_singleton (tidy : o.Tidy) (joins : b ∈ Binding.chains)
    (other : o.expr.component? ≠ some (.gate b.gate)) : o.operandsUnder b = [o.expr] := by
  apply if_neg
  rintro rfl
  cases tidy with
  | atom _ _ => exact absurd joins (show Binding.atom ∉ Binding.chains by decide)
  | chain _ several _ => exact other (component?_nest several)

/-- Whether or not a piece stands without parentheses, its operands may follow a gate. -/
theorem Tidy.operandsUnder (tidy : o.Tidy) (joins : b ∈ Binding.chains) :
    o.operandsUnder b ≠ [] ∧ ∀ e ∈ o.operandsUnder b, NormalUnder b.gate e := by
  by_cases other : o.expr.component? = some (.gate b.gate)
  · cases tidy with
    | atom _ plain => exact absurd other (plain _)
    | @chain c es joined several each =>
      have rooted : (nest c.gate es).component? = some (.gate c.gate) := component?_nest several
      have same : c = b := by
        apply Binding.gate_inj c joined b joins
        exact Component.gate.inj (Option.some.inj (rooted.symm.trans other))
      subst c
      have given : es ≠ [] := List.ne_nil_of_length_pos (Nat.lt_of_lt_of_le Nat.zero_lt_two several)
      rw [Outline.operandsUnder, if_pos rfl]
      exact ⟨given, each⟩
  · rw [tidy.operandsUnder_eq_singleton joins other]
    exact ⟨by simp, by simpa using ⟨tidy.normal, other⟩⟩

theorem Tidy.negate (tidy : o.Tidy) : o.negate.Tidy := .atom (.not tidy.normal) nofun

theorem tidy_join (joins : b ∈ Binding.chains) (several : 2 ≤ os.length)
    (tidy : ∀ o ∈ os, o.Tidy) : (join b os).Tidy := by
  refine .chain joins ?_ ?_
  · match os, several, tidy with
    | o :: p :: rest, _, tidy =>
      have first := List.length_pos_of_ne_nil ((tidy o (by simp)).operandsUnder joins).1
      have second := List.length_pos_of_ne_nil ((tidy p (by simp)).operandsUnder joins).1
      simp only [List.flatMap_cons, List.length_append]
      omega
  · intro e listed
    obtain ⟨o, member, inside⟩ := List.mem_flatMap.mp listed
    exact ((tidy o member).operandsUnder joins).2 e inside

/-- Both outlines of an expression are tidy. -/
def Pair.Tidy (p : Pair) : Prop := p.plain.Tidy ∧ p.negated.Tidy

theorem tidy_join_map {part : Pair → Outline} {ps : List Pair} (joins : b ∈ Binding.chains)
    (several : 2 ≤ ps.length) (tidy : ∀ p ∈ ps, (part p).Tidy) : (join b (ps.map part)).Tidy := by
  apply tidy_join joins (by simpa using several)
  simpa using tidy

theorem tidy_gate (style : Style) (g : Gate) {ps : List Pair} (tidy : ∀ p ∈ ps, p.Tidy) :
    (gate style g ps).Tidy := by
  match ps, tidy with
  | [], _ =>
    refine .atom (.var ?_) nofun
    cases g.eval [] <;> decide
  | [p], tidy =>
    have plain : p.plain.Tidy := (tidy p (by simp)).1
    rw [gate]
    split
    · exact plain.negate
    · exact plain
  | p :: q :: rest, tidy =>
    have several : 2 ≤ (p :: q :: rest).length := by simp
    have plain := fun p listed => (tidy p listed).1
    have negated := fun p listed => (tidy p listed).2
    cases g with
    | and | or | xor => exact tidy_join_map (by decide) several plain
    | xnor =>
      cases rest with
      | nil => exact tidy_join_map (by decide) several plain
      | cons r rest => exact (tidy_join_map (by decide) several plain).negate
    | nand | nor =>
      cases style with
      | compact => exact (tidy_join_map (by decide) several plain).negate
      | expanded => exact tidy_join_map (by decide) several negated

theorem tidy_pair (style : Style) {e : Expr} (legible : e.Legible) : (pair style e).Tidy := by
  induction e with
  | var name =>
    have tidy : (atom (.var name)).Tidy := .atom (.var (legible name (by simp))) nofun
    exact ⟨tidy, tidy.negate⟩
  | not e ih =>
    obtain ⟨plain, negated⟩ := ih legible
    exact ⟨plain.negate, plain⟩
  | gate g es ih =>
    have tidy : (gate style g (es.map (pair style))).Tidy := by
      apply tidy_gate
      intro p member
      obtain ⟨e, listed, rfl⟩ := List.mem_map.mp member
      apply ih e listed
      intro name leaf
      exact legible name (by simpa using ⟨e, listed, leaf⟩)
    rw [pair_gate]
    exact ⟨tidy, tidy.negate⟩

theorem nest_operandsUnder (b : Binding) (o : Outline) :
    nest b.gate (o.operandsUnder b) = o.expr := by
  by_cases same : o.binding = b
  · rw [operandsUnder, if_pos same, expr, same]
  · rw [operandsUnder, if_neg same]
    rfl

/-- A gate that has a mark is written with it between two operands. -/
theorem gate_pair {g : Gate} (marked : g ∈ [Gate.and, .or, .xor, .xnor]) :
    ∃ b ∈ Binding.chains, b.gate = g ∧
      ∀ style p q, gate style g [p, q] = join b [p.plain, q.plain] := by
  simp only [List.mem_cons, List.not_mem_nil, or_false] at marked
  rcases marked with rfl | rfl | rfl | rfl
  · exact ⟨.product, by decide, rfl, fun _ _ _ => rfl⟩
  · exact ⟨.sum .plus, by decide, rfl, fun _ _ _ => rfl⟩
  · exact ⟨.sum .caret, by decide, rfl, fun _ _ _ => rfl⟩
  · exact ⟨.sum .circledDot, by decide, rfl, fun _ _ _ => rfl⟩

end Outline

end Printer

namespace Expr

open Printer Outline

variable {e : Expr}

theorem normal_reread (style : Style) (legible : e.Legible) : (e.reread style).Normal :=
  (tidy_pair style legible).1.normal

theorem reread_normal (style : Style) (normal : e.Normal) : e.reread style = e := by
  induction normal with
  | var _ => rfl
  | not _ ih => exact congrArg Expr.not ih
  | @gate g left right marked normalLeft normalRight other ihLeft ihRight =>
    obtain ⟨b, joins, rfl, joined⟩ := gate_pair marked
    have tidyLeft := (tidy_pair style normalLeft.legible).1
    have tidyRight := (tidy_pair style normalRight.legible).1
    -- The right operand keeps its parentheses, so only the left one can continue into the chain.
    have last : (pair style right).plain.operandsUnder b = [right] := by
      have alone := tidyRight.operandsUnder_eq_singleton joins
      rw [show (pair style right).plain.expr = right from ihRight] at alone
      exact alone other
    calc (Expr.gate b.gate [left, right]).reread style
        = (join b [(pair style left).plain, (pair style right).plain]).expr := by
          rw [reread, pair_gate]
          exact congrArg expr (joined style _ _)
      _ = nest b.gate ((pair style left).plain.operandsUnder b ++ [right]) := by
          rw [join, List.flatMap_cons, List.flatMap_cons, last]
          rfl
      _ = .gate b.gate [left, right] := by
          rw [nest_concat (tidyLeft.operandsUnder joins).1, nest_operandsUnder]
          exact congrArg (fun e => Expr.gate b.gate [e, right]) ihLeft

/-- Reads a text and writes what has been read, a number of times over. -/
def reprint (style : Style) : Nat → String → Except ParseError String
  | 0, text => .ok text
  | trips + 1, text => (parse text).bind fun e => reprint style trips (e.print style)

theorem parse_print_of_normal (style : Style) (normal : e.Normal) :
    parse (e.print style) = .ok e := by
  rw [parse_print style normal.legible, reread_normal style normal]

theorem reprint_print (style : Style) (normal : e.Normal) (trips : Nat) :
    reprint style trips (e.print style) = .ok (e.print style) := by
  induction trips with
  | zero => rfl
  | succ trips ih =>
    rw [reprint, parse_print_of_normal style normal]
    exact ih

/-- Written text reads as a normal expression, whose text stays the same however often it is read
and written again; and a normal expression is read back from its text as it is. -/
theorem parse_print_settles (style : Style) :
    (∀ e : Expr, e.Legible → ∃ back, parse (e.print style) = .ok back ∧ back.Normal ∧
      ∀ further trips, reprint further trips (back.print further) = .ok (back.print further)) ∧
    ∀ e : Expr, e.Normal → parse (e.print style) = .ok e := by
  constructor
  · intro e legible
    have normal := normal_reread style legible
    exact ⟨e.reread style, parse_print style legible, normal,
      fun further => reprint_print further normal⟩
  · intro e normal
    exact parse_print_of_normal style normal

theorem parse_print_settles_on_grouped_sums :
    let e := Expr.gate .nor [.gate .nand [.var "o", .gate .and [.var "r", .var "1"]],
      .gate .or [.var "x1", .gate .or [.var "b", .gate .xnor []]]]
    let n := Expr.gate .or [.gate .or [.var "a", .gate .and [.var "o", .var "r"]],
      .gate .xor [.var "x1", .not (.var "0")]]
    (e.Legible ∧ ∃ back, parse (e.print .expanded) = .ok back ∧ back.Normal ∧
      ∀ further trips, reprint further trips (back.print further) = .ok (back.print further)) ∧
    n.Normal ∧ parse (n.print .expanded) = .ok n := by
  intro e n
  have legible : e.Legible := by decide
  have normal : n.Normal := by
    have name {text : String} (legible : Token.isLegible text) : (Expr.var text).Normal :=
      .var legible
    refine .gate (by decide) (.gate (by decide) (name (by decide))
      (.gate (by decide) (name (by decide)) (name (by decide)) nofun) (by decide))
      (.gate (by decide) (name (by decide)) (.not (name (by decide))) (by decide)) (by decide)
  obtain ⟨settles, kept⟩ := parse_print_settles .expanded
  exact ⟨⟨legible, settles e legible⟩, normal, kept n normal⟩

end Expr

end Switching
