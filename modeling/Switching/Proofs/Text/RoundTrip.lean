import Switching.Proofs.Parser.Completeness
import Switching.Proofs.Text.Legible
import Switching.Proofs.Text.Outline

/-! Written text is a phrase of the grammar. Every piece of it scans to whole
operands, so pieces can be put side by side, and reads as its outline says.
Reading what was written therefore gives back the outline of the expression. -/
namespace Switching.Printer

open Token Switching.Expr

/-- Phrases of one kind with an operator between each two. -/
inductive Chain (part : Phrase) (op : Operator) : List Token → List Expr → Prop
  | single {ts e} : Reads part ts [e] → Chain part op ts [e]
  | append {ts us es fs} : Chain part op ts es → Chain part op us fs →
      Chain part op (ts ++ .operator op :: us) (es ++ fs)

namespace Chain

variable {part whole : Phrase} {op : Operator} {g : Gate} {ts : List Token} {es : List Expr}

theorem ne_nil (chain : Chain part op ts es) : es ≠ [] := by
  induction chain with
  | single _ => simp
  | append _ _ ih _ => simp [ih]

/-- A chain reads as its operands grouped to the left, also behind what is already read. -/
theorem reads (start : ∀ {ts e}, Reads part ts [e] → Reads whole ts [e])
    (extend : ∀ {ts us e f}, Reads whole ts [e] → Reads part us [f] →
      Reads whole (ts ++ .operator op :: us) [.gate g [e, f]])
    (chain : Chain part op ts es) :
    Reads whole ts [nest g es] ∧ ∀ us e, Reads whole us [e] →
      Reads whole (us ++ .operator op :: ts) [nestOnto g e es] := by
  induction chain with
  | single read => exact ⟨start read, fun _ _ before => extend before read⟩
  | @append ts us es fs left right ihLeft ihRight =>
    constructor
    · obtain ⟨e, rest, rfl⟩ := List.exists_cons_of_ne_nil left.ne_nil
      have joined := ihRight.2 _ _ ihLeft.1
      rwa [nest, nestOnto, nestOnto, ← List.foldl_append] at joined
    · intro before e read
      have joined := ihRight.2 _ _ (ihLeft.2 _ _ read)
      rwa [nestOnto, nestOnto, ← List.foldl_append, List.append_assoc, List.cons_append] at joined

theorem reads_product (chain : Chain .factor (.mark .star) ts es) :
    Reads .product ts [nest .and es] :=
  (chain.reads .factor fun left right => .productGate left rfl (by decide) right).1

theorem reads_sum {m : GateMark} (level : m.gate.precedence = 2)
    (chain : Chain .product (.mark m) ts es) : Reads .sum ts [nest m.gate es] :=
  (chain.reads .product fun left right =>
    .sumGate left rfl (Phrase.mem_gates_iff.mpr level) right).1

end Chain

/-- Tokens that neither take an operand from their left nor need one on their right. -/
structure Whole (ts : List Token) : Prop where
  first : ∃ t, ts.head? = some t ∧ t.startsOperand
  last : ∃ t, ts.getLast? = some t ∧ t.endsOperand

theorem Whole.between {ts us : List Token} (left : Whole ts) (t : Token) (right : Whole us) :
    Whole (ts ++ t :: us) := by
  obtain ⟨a, head, starts⟩ := left.first
  obtain ⟨b, last, ends⟩ := right.last
  constructor
  · exact ⟨a, by simp [List.head?_append, head], starts⟩
  · exact ⟨b, by simp [List.getLast?_append, List.getLast?_cons, last], ends⟩

def Reading (b : Binding) (ts : List Token) (operands : List Expr) : Prop :=
  match b with
  | .atom => Reads .postfixed ts [nest .and operands]
  | .product => Chain .factor (.mark .star) ts operands
  | .sum m => m.gate.precedence = 2 ∧ Chain .product (.mark m) ts operands

/-- A piece of text says what its outline says. -/
structure Spells (p : Piece) (o : Outline) : Prop where
  binding : o.binding = p.binding
  whole : Whole (ofChars p.text)
  reading : Reading p.binding (ofChars p.text) o.operands

@[simp] theorem ofChars_nil : ofChars [] = [] := rfl

theorem ofChars_quote (text : List Char) :
    ofChars (text ++ ['\'']) = ofChars text ++ [.operator .postfixNot] := by
  rw [ofChars_append_cons text [] (t := .operator .postfixNot) (by decide) rfl,
    seam_of_not_start (by decide)]
  simp

theorem ofChars_mark (left right : List Char) (m : GateMark) :
    ofChars (left ++ m.char :: right) = ofChars left ++ .operator (.mark m) :: ofChars right := by
  have other : m.char.isAlphanum = false := by cases m <;> decide
  have token : ofChar? m.char = some (.operator (.mark m)) := by cases m <;> rfl
  rw [ofChars_append_cons left right other token, seam_of_not_start rfl, seam_of_not_end rfl]
  simp

theorem ofChars_parenthesized (p : Piece) :
    ofChars p.parenthesized = .leftParen :: ofChars p.text ++ [.rightParen] := by
  have opened := ofChars_append_cons [] (p.text ++ [')']) (c := '(') (t := .leftParen)
    (by decide) rfl
  have closed := ofChars_append_cons p.text [] (c := ')') (t := .rightParen) (by decide) rfl
  rw [seam_of_not_start (t := .rightParen) rfl] at closed
  rw [seam_of_not_end rfl, closed] at opened
  simpa [Piece.parenthesized] using opened

namespace Spells

variable {p : Piece} {o : Outline}

theorem reads_sum (spells : Spells p o) : Reads .sum (ofChars p.text) [o.expr] := by
  obtain ⟨same, _, reading⟩ := spells
  rw [Outline.expr, same]
  cases shape : p.binding with
  | atom =>
    rw [shape] at reading
    exact .product (.factor (.postfixed reading))
  | product =>
    rw [shape] at reading
    exact .product reading.reads_product
  | sum m =>
    rw [shape] at reading
    exact reading.2.reads_sum reading.1

theorem whole_parenthesized (p : Piece) : Whole (ofChars p.parenthesized) := by
  rw [ofChars_parenthesized]
  exact ⟨⟨.leftParen, rfl, rfl⟩, ⟨.rightParen, List.getLast?_concat, rfl⟩⟩

theorem reads_parenthesized (spells : Spells p o) :
    Reads .atom (ofChars p.parenthesized) [o.expr] := by
  rw [ofChars_parenthesized]
  exact .group spells.reads_sum

theorem quote {text : List Char} {e : Expr} (whole : Whole (ofChars text))
    (read : Reads .postfixed (ofChars text) [e]) :
    Spells ⟨text ++ ['\''], .atom⟩ (.atom (.not e)) := by
  have tokens := ofChars_quote text
  refine ⟨rfl, ?_, ?_⟩
  · obtain ⟨t, head, starts⟩ := whole.first
    rw [tokens]
    exact ⟨⟨t, by simp [List.head?_append, head], starts⟩, ⟨_, List.getLast?_concat, rfl⟩⟩
  · rw [tokens]
    exact .postfixNot read

theorem negate (spells : Spells p o) : Spells p.negate o.negate := by
  obtain ⟨text, binding⟩ := p
  cases binding with
  | atom =>
    have read : Reads .postfixed (ofChars text) [o.expr] := by
      rw [Outline.expr, spells.binding]
      exact spells.reading
    exact quote spells.whole read
  | product | sum m => exact quote (whole_parenthesized _) (.atom spells.reads_parenthesized)

/-- A piece as an operand of a product. -/
theorem asFactor (spells : Spells p o) : Whole (ofChars p.asFactor) ∧
    Chain .factor (.mark .star) (ofChars p.asFactor) (o.operandsUnder .product) := by
  obtain ⟨text, binding⟩ := p
  have same := spells.binding
  cases binding with
  | atom =>
    refine ⟨spells.whole, ?_⟩
    rw [Outline.operandsUnder, if_neg (by simp [same]), Outline.expr, same]
    exact .single (.postfixed spells.reading)
  | product =>
    refine ⟨spells.whole, ?_⟩
    rw [Outline.operandsUnder, if_pos same]
    exact spells.reading
  | sum m =>
    refine ⟨whole_parenthesized _, ?_⟩
    rw [Outline.operandsUnder, if_neg (by simp [same])]
    exact .single (.postfixed (.atom spells.reads_parenthesized))

/-- A piece as an operand of a sum. -/
theorem asTerm (spells : Spells p o) (m : GateMark) : Whole (ofChars (p.asTerm m)) ∧
    Chain .product (.mark m) (ofChars (p.asTerm m)) (o.operandsUnder (.sum m)) := by
  obtain ⟨text, binding⟩ := p
  have same := spells.binding
  cases binding with
  | atom =>
    refine ⟨spells.whole, ?_⟩
    rw [Outline.operandsUnder, if_neg (by simp [same]), Outline.expr, same]
    exact .single (.factor (.postfixed spells.reading))
  | product =>
    refine ⟨spells.whole, ?_⟩
    rw [Outline.operandsUnder, if_neg (by simp [same]), Outline.expr, same]
    exact .single (Chain.reads_product spells.reading)
  | sum other =>
    by_cases equal : other = m
    · subst other
      have bare : Piece.asTerm m ⟨text, .sum m⟩ = text := if_pos rfl
      rw [bare, Outline.operandsUnder, if_pos same]
      exact ⟨spells.whole, spells.reading.2⟩
    · have different : ¬ o.binding = .sum m := by
        rw [same]
        exact fun h => equal (Binding.sum.inj h)
      have enclosed : Piece.asTerm m ⟨text, .sum other⟩ = Piece.parenthesized ⟨text, .sum other⟩ :=
        if_neg equal
      rw [enclosed, Outline.operandsUnder, if_neg different]
      exact ⟨whole_parenthesized _,
        .single (.factor (.postfixed (.atom spells.reads_parenthesized)))⟩

end Spells

/-- Text that reads as a chain of operands. -/
def Lists (part : Phrase) (op : Operator) (text : List Char) (es : List Expr) : Prop :=
  Whole (ofChars text) ∧ Chain part op (ofChars text) es

theorem Lists.joinFactors {left right : List Char} {es fs : List Expr}
    (first : Lists .factor (.mark .star) left es) (second : Lists .factor (.mark .star) right fs) :
    Lists .factor (.mark .star) (joinFactors left right) (es ++ fs) := by
  obtain ⟨a, last, ends⟩ := first.1.last
  obtain ⟨b, head, starts⟩ := second.1.first
  rw [Lists, ofChars_joinFactors last ends head starts]
  exact ⟨first.1.between Token.product second.1, .append first.2 second.2⟩

theorem Lists.joinTerms {m : GateMark} {left right : List Char} {es fs : List Expr}
    (first : Lists .product (.mark m) left es) (second : Lists .product (.mark m) right fs) :
    Lists .product (.mark m) (left ++ m.char :: right) (es ++ fs) := by
  rw [Lists, ofChars_mark]
  exact ⟨first.1.between (.operator (.mark m)) second.1, .append first.2 second.2⟩

theorem lists_factors {ps : List Piece} {os : List Outline} (spelled : List.Forall₂ Spells ps os)
    {text : List Char} {es : List Expr} (before : Lists .factor (.mark .star) text es) :
    Lists .factor (.mark .star) ((ps.map Piece.asFactor).foldl joinFactors text)
      (es ++ os.flatMap (Outline.operandsUnder .product)) := by
  induction spelled generalizing text es with
  | nil => simpa using before
  | cons head _ ih =>
    have longer := ih (before.joinFactors head.asFactor)
    rwa [List.append_assoc] at longer

theorem lists_terms {m : GateMark} {p : Piece} {o : Outline} {ps : List Piece} {os : List Outline}
    (first : Spells p o) (spelled : List.Forall₂ Spells ps os) :
    Lists .product (.mark m) ([m.char].intercalate ((p :: ps).map (Piece.asTerm m)))
      ((o :: os).flatMap (Outline.operandsUnder (.sum m))) := by
  induction spelled generalizing p o with
  | nil => simpa [List.intercalate, Lists] using first.asTerm m
  | cons head _ ih =>
    have joined := Lists.joinTerms (first.asTerm m) (ih head)
    simpa [List.intercalate] using joined

theorem spells_product {ps : List Piece} {os : List Outline} (spelled : List.Forall₂ Spells ps os)
    (given : ps ≠ []) : Spells (product ps) (.join .product os) := by
  cases spelled with
  | nil => exact absurd rfl given
  | @cons p o ps os first rest =>
    have alone : joinFactors [] p.asFactor = p.asFactor := rfl
    obtain ⟨whole, chain⟩ := lists_factors rest first.asFactor
    have text : (product (p :: ps)).text = (ps.map Piece.asFactor).foldl joinFactors p.asFactor := by
      rw [product, List.map_cons, List.foldl_cons, alone]
    refine ⟨rfl, ?_, ?_⟩
    · rw [text]
      exact whole
    · rw [text]
      exact chain

theorem spells_sum {m : GateMark} (level : m.gate.precedence = 2) {ps : List Piece}
    {os : List Outline} (spelled : List.Forall₂ Spells ps os) (given : ps ≠ []) :
    Spells (sum m ps) (.join (.sum m) os) := by
  cases spelled with
  | nil => exact absurd rfl given
  | cons first rest =>
    obtain ⟨whole, chain⟩ := lists_terms first rest
    exact ⟨rfl, whole, level, chain⟩

structure SpellsForms (f : Forms) (p : Outline.Pair) : Prop where
  plain : Spells f.plain p.plain
  negated : Spells f.negated p.negated

theorem SpellsForms.of {p : Piece} {o : Outline} (spells : Spells p o) :
    SpellsForms (.of p) (.of o) := ⟨spells, spells.negate⟩

theorem spells_name {name : String} (legible : isLegible name) :
    Spells ⟨name.toList, .atom⟩ (.atom (.var name)) := by
  have scanned := ofChars_name legible
  refine ⟨rfl, ?_, ?_⟩
  · rw [scanned]
    exact ⟨⟨_, rfl, rfl⟩, ⟨_, rfl, rfl⟩⟩
  · rw [scanned]
    exact .atom .var

theorem spells_constant (value : Bool) :
    Spells ⟨[if value then '1' else '0'], .atom⟩ (.atom (.constant value)) := by
  cases value with
  | false => exact spells_name (show isLegible "0" by decide)
  | true => exact spells_name (show isLegible "1" by decide)

theorem spells_gate (style : Style) (g : Gate) {fs : List Forms} {ps : List Outline.Pair}
    (spelled : List.Forall₂ SpellsForms fs ps) :
    Spells (gate style g fs) (Outline.gate style g ps) := by
  cases spelled with
  | nil => exact spells_constant _
  | @cons f p fs ps first others =>
    cases others with
    | nil =>
      by_cases inverts : g.inverting
      · rw [gate, Outline.gate, if_pos inverts, if_pos inverts]
        exact first.plain.negate
      · rw [gate, Outline.gate, if_neg inverts, if_neg inverts]
        exact first.plain
    | @cons f' p' fs ps second others =>
      have all : List.Forall₂ SpellsForms (f :: f' :: fs) (p :: p' :: ps) :=
        .cons first (.cons second others)
      have plain : List.Forall₂ Spells ((f :: f' :: fs).map Forms.plain)
          ((p :: p' :: ps).map Outline.Pair.plain) :=
        List.forall₂_map_left_iff.mpr (List.forall₂_map_right_iff.mpr
          (all.imp fun _ _ => SpellsForms.plain))
      have negated : List.Forall₂ Spells ((f :: f' :: fs).map Forms.negated)
          ((p :: p' :: ps).map Outline.Pair.negated) :=
        List.forall₂_map_left_iff.mpr (List.forall₂_map_right_iff.mpr
          (all.imp fun _ _ => SpellsForms.negated))
      cases g with
      | and => exact spells_product plain (by simp)
      | or => exact spells_sum rfl plain (by simp)
      | xor => exact spells_sum rfl plain (by simp)
      | xnor =>
        cases others with
        | nil => exact spells_sum rfl plain (by simp)
        | cons third others => exact (spells_sum rfl plain (by simp)).negate
      | nand =>
        cases style with
        | compact => exact (spells_product plain (by simp)).negate
        | expanded => exact spells_sum rfl negated (by simp)
      | nor =>
        cases style with
        | compact => exact (spells_sum rfl plain (by simp)).negate
        | expanded => exact spells_product negated (by simp)

theorem forms_gate (style : Style) (g : Gate) (es : List Expr) :
    forms style (.gate g es) = .of (gate style g (es.map (forms style))) := by
  simp [forms, Expr.fold]

theorem spells_forms (style : Style) {e : Expr} (legible : e.Legible) :
    SpellsForms (forms style e) (Outline.pair style e) := by
  induction e with
  | var name => exact .of (spells_name (legible name (by simp)))
  | not e ih =>
    have spells := ih fun name member => legible name (by simpa using member)
    exact ⟨spells.plain.negate, spells.plain⟩
  | gate g es ih =>
    rw [forms_gate, Outline.pair_gate]
    apply SpellsForms.of
    apply spells_gate
    rw [List.forall₂_map_left_iff, List.forall₂_map_right_iff, List.forall₂_same]
    intro e listed
    apply ih e listed
    intro name member
    exact legible name (by simpa using ⟨e, listed, member⟩)

end Switching.Printer

namespace Switching.Expr

theorem parse_print (style : Style) {e : Expr} (legible : e.Legible) :
    parse (e.print style) = .ok (e.reread style) := by
  rw [parse, print, Token.ofText_ofList]
  exact ofTokens_of_reads (Printer.spells_forms style legible).plain.reads_sum

/-- Written text reads back with the value of the expression, and names what it names in the
same order, gates without operands counting as their constants. -/
theorem parse_print_meaning (style : Style) {e : Expr} (legible : e.Legible) :
    ∃ back, parse (e.print style) = .ok back ∧ (∀ v, back.eval v = e.eval v) ∧
      back.leaves = e.grounded.leaves :=
  ⟨e.reread style, parse_print style legible, fun v => eval_reread v style e,
    leaves_reread style e⟩

theorem parse_print_letters_of_a_gate :
    let e := Expr.gate .nor [.gate .and [.var "o", .var "r"], .gate .xnor [], .not (.var "x1"),
      .gate .or [.var "0"]]
    e.Legible ∧ ∃ back, parse (e.print .expanded) = .ok back ∧ (∀ v, back.eval v = e.eval v) ∧
      back.leaves = e.grounded.leaves :=
  have legible : Expr.Legible _ := by decide
  ⟨legible, parse_print_meaning .expanded legible⟩

end Switching.Expr
