import Switching.Proofs.Text.Guarded

/-! Printed parentheses are needed. Without two that match the text is another or none: if it were
read as before, all names would be found again, so its tokens would be the old ones without the two;
but then an operator beside or between them would reach further or less far than it did. Only the
first operand of a sum reads the same without its parentheses. -/
namespace Switching.Printer

open Token Switching.Expr

section

variable {p : Phrase} {ts rest : List Token} {es : List Expr} {text before inner after : List Char}
  {op : Operator}

theorem whole_of_reads (read : Reads p ts es) (plain : ∀ t ∈ ts, t.isPlain) : Whole ts := by
  induction read with
  | product _ ih | factor _ ih | postfixed _ ih | atom _ ih | argument _ ih => exact ih plain
  | sumGate _ _ _ _ ihLeft ihRight | productGate _ _ _ _ ihLeft ihRight =>
    rw [List.forall_mem_append, List.forall_mem_cons] at plain
    exact (ihLeft plain.1).between _ (ihRight plain.2.2)
  | prefixNot _ _ | call _ _ => exact absurd (plain _ List.mem_cons_self) (by simp [isPlain])
  | postfixNot _ ih =>
    rw [List.forall_mem_append] at plain
    obtain ⟨t, first, starts⟩ := (ih plain.1).first
    exact ⟨⟨t, by simp [List.head?_append, first], starts⟩, ⟨_, List.getLast?_concat, rfl⟩⟩
  | var => exact ⟨⟨_, rfl, rfl⟩, ⟨_, rfl, rfl⟩⟩
  | group _ _ => exact ⟨⟨_, rfl, rfl⟩, ⟨_, List.getLast?_concat, rfl⟩⟩
  | arguments _ _ _ _ => exact absurd (plain .comma (by simp)) (by simp [isPlain])

theorem Clean.isPlain (clean : Clean text) : ∀ t ∈ ofChars text, t.isPlain := by
  intro t listed
  rcases mem_insertProducts listed with rfl | scanned
  · rfl
  · obtain ⟨spelled, wordless, -⟩ := clean.scan
    have shown : ∀ c ∈ t.text.toList, c.isAlphanum ∨ c ∈ marks := by
      intro c member
      apply clean.known c
      rw [← spelled]
      exact List.mem_flatMap.mpr ⟨t, scanned, member⟩
    match t with
    | .var _ | .leftParen | .rightParen | .operator .postfixNot | .operator (.mark _) => rfl
    | .operator (.word g) => exact absurd scanned (wordless g)
    | .comma => exact absurd (shown ',' (by decide)) (by decide)
    | .operator (.prefixNot m) =>
      cases m with
      | bang => exact absurd (shown '!' (by decide)) (by decide)
      | tilde => exact absurd (shown '~' (by decide)) (by decide)

/-- The tokens in front of an operand. -/
def front (text : List Char) : List Token := ofChars text ++ seam (ofChars text) [.leftParen]

/-- The tokens behind an operand. -/
def rear (text : List Char) : List Token := seam [.rightParen] (ofChars text) ++ ofChars text

theorem ofChars_pair (before inner after : List Char) :
    ofChars (before ++ '(' :: (inner ++ ')' :: after)) =
      front before ++ (.leftParen :: ofChars inner ++ .rightParen :: rear after) := by
  rw [ofChars_append_cons before _ (c := '(') (t := .leftParen) (by decide) rfl,
    ofChars_append_cons inner after (c := ')') (t := .rightParen) (by decide) rfl,
    seam_of_not_end (t := .leftParen) rfl, seam_of_not_start (t := .rightParen) rfl]
  simp [front, rear]

theorem ofChars_bare (whole : Whole (ofChars inner))
    (apart : scanAfter [] (before ++ (inner ++ after)) =
      scanAfter [] before ++ (scanAfter [] inner ++ scanAfter [] after)) :
    ofChars (before ++ (inner ++ after)) = front before ++ (ofChars inner ++ rear after) := by
  obtain ⟨a, first, starts⟩ := whole.first
  obtain ⟨b, last, ends⟩ := whole.last
  rw [ofChars, head?_insertProducts] at first
  rw [ofChars, getLast?_insertProducts] at last
  have opens : seam (scanAfter [] before) (scanAfter [] inner ++ scanAfter [] after) =
      seam (ofChars before) [.leftParen] := by
    have opening : startsOperand .leftParen = true := rfl
    simp [seam, ofChars, List.head?_append, first, starts, opening]
  have closes : seam (scanAfter [] inner) (scanAfter [] after) =
      seam [.rightParen] (ofChars after) := by
    have closing : endsOperand .rightParen = true := rfl
    simp [seam, ofChars, last, ends, closing]
  rw [ofChars, apart, insertProducts_append, insertProducts_append, opens, closes, front, rear]
  simp [ofChars]

theorem seam_cases (left right : List Token) :
    seam left right = [] ∨ seam left right = [Token.product] := by
  rw [seam]
  split
  · exact .inr rfl
  · exact .inl rfl

/-- In front of an operand stands nothing, a parenthesis or a gate. -/
theorem front_cases (clean : Clean text) : text = [] ∨ (∃ lead, text = lead ++ ['(']) ∨
    ∃ lead op g, front text = lead ++ [.operator op] ∧ op.component = .gate g := by
  obtain ⟨spelled, -, -⟩ := clean.scan
  cases last : (ofChars text).getLast? with
  | none =>
    have empty : scanAfter [] text = [] := by
      rw [ofChars, getLast?_insertProducts] at last
      exact List.getLast?_eq_none_iff.mp last
    rw [empty] at spelled
    exact .inl spelled.symm
  | some t =>
    have plain := clean.isPlain t (List.mem_of_getLast? last)
    obtain ⟨lead, tokens⟩ := List.getLast?_eq_some_iff.mp last
    by_cases ends : t.endsOperand
    · refine .inr (.inr ⟨ofChars text, .mark .star, .and, ?_, rfl⟩)
      have opening : startsOperand .leftParen = true := rfl
      simp [front, seam, last, ends, opening, Token.product]
    · have bare : front text = ofChars text := by simp [front, seam, last, ends]
      cases t with
      | leftParen =>
        rw [ofChars, getLast?_insertProducts] at last
        obtain ⟨lead, tokens⟩ := List.getLast?_eq_some_iff.mp last
        refine .inr (.inl ⟨spelling lead, ?_⟩)
        rw [← spelled, tokens, spelling_append]
        rfl
      | var | rightParen => exact absurd rfl ends
      | comma => cases plain
      | operator op =>
        cases op with
        | mark m => exact .inr (.inr ⟨lead, .mark m, m.gate, by rw [bare, tokens], rfl⟩)
        | postfixNot => exact absurd rfl ends
        | prefixNot | word => cases plain

theorem front_of_opens (opens : text = [] ∨ ∃ lead, text = lead ++ ['(']) :
    front text = [] ∨ ∃ lead, front text = lead ++ [.leftParen] := by
  rcases opens with rfl | ⟨lead, rfl⟩
  · exact .inl rfl
  · have tokens := ofChars_append_cons lead [] (c := '(') (t := .leftParen) (by decide) rfl
    have bare : seam (ofChars (lead ++ ['('])) [.leftParen] = [] := by
      simp [tokens, seam, endsOperand]
    refine .inr ⟨ofChars lead ++ seam (ofChars lead) [.leftParen], ?_⟩
    rw [front, bare, tokens]
    simp

theorem rear_mark (m : GateMark) (text : List Char) :
    rear (m.char :: text) = .operator (.mark m) :: ofChars text := by
  have tokens := ofChars_mark [] text m
  rw [List.nil_append, ofChars_nil, List.nil_append] at tokens
  rw [rear, tokens, seam_of_not_start rfl, List.nil_append]

/-- The operator of a sum behind an operand is written there. -/
theorem rear_sum (clean : Clean text) (follows : rear text = .operator op :: rest)
    (sum : op.precedence = 2) : ∃ c ∈ ['+', '^', '⊙'], ∃ behind, text = c :: behind := by
  obtain ⟨spelled, -, -⟩ := clean.scan
  rcases seam_cases [.rightParen] (ofChars text) with bare | product
  · rw [rear, bare, List.nil_append] at follows
    have plain := clean.isPlain (.operator op) (by simp [follows])
    have first : (scanAfter [] text).head? = some (.operator op) := by
      rw [← head?_insertProducts]
      exact congrArg List.head? follows
    obtain ⟨behind, tokens⟩ := List.head?_eq_some_iff.mp first
    rw [tokens, spelling_cons] at spelled
    match op, plain, sum with
    | .mark .plus, _, _ => exact ⟨'+', by decide, _, spelled.symm⟩
    | .mark .caret, _, _ => exact ⟨'^', by decide, _, spelled.symm⟩
    | .mark .circledDot, _, _ => exact ⟨'⊙', by decide, _, spelled.symm⟩
    | .mark .bar, _, _ =>
      have listed : '|' ∈ text := by
        rw [← spelled]
        exact List.mem_cons_self
      exact absurd (clean.known '|' listed) (by decide)
  · rw [rear, product] at follows
    obtain ⟨rfl, -⟩ : Operator.mark .star = op ∧ _ := by simpa [Token.product] using follows
    exact absurd sum (by decide)

theorem names_seam (left right : List Token) : (seam left right).filterMap name? = [] := by
  rcases seam_cases left right with bare | product
  · rw [bare]
    rfl
  · rw [product]
    rfl

/-- Nothing or a parenthesis in front, and the operator of a sum behind. -/
def Leads (before after : List Char) : Prop :=
  (before = [] ∨ ∃ lead, before = lead ++ ['(']) ∧
    ∃ c ∈ ['+', '^', '⊙'], ∃ behind, after = c :: behind

/-- Two matching parentheses in written text, with all that is known about what they part. -/
structure Pair (before inner after : List Char) (e : Expr) : Prop where
  clean : Clean before ∧ Clean inner ∧ Clean after
  kept : Kept (front before) (ofChars inner) (rear after)
  read : Reads .sum (front before ++ (.leftParen :: ofChars inner ++ .rightParen :: rear after)) [e]

variable {q : Piece} {e : Expr}

theorem Written.pair (written : Written q)
    (split : q.text = before ++ '(' :: (inner ++ ')' :: after))
    (matching : Balanced '(' ')' inner) (read : Reads .sum (ofChars q.text) [e]) :
    Pair before inner after e := by
  have clean := written.clean
  have guarded := written.keeps.guarded
  rw [split] at clean guarded read
  rw [ofChars_pair] at guarded read
  obtain ⟨first, others⟩ := (clean_append_mark (by decide)).mp clean
  obtain ⟨second, third⟩ := (clean_append_mark (by decide)).mp others
  exact ⟨⟨first, second, third⟩, guarded _ _ _ rfl ((balanced_ofChars inner).mpr matching), read⟩

theorem Pair.whole (pair : Pair before inner after e) : Whole (ofChars inner) := by
  obtain ⟨op, joined⟩ := pair.kept.joined
  have plain := pair.clean.2.1.isPlain
  generalize ofChars inner = ts at joined plain
  cases joined with
  | intro _ _ read => exact whole_of_reads read plain

/-- Where the text without the two is read as before, its tokens are the others. -/
theorem Pair.bare (pair : Pair before inner after e)
    (same : Expr.ofTokens (ofChars (before ++ (inner ++ after))) = .ok e) :
    Reads .sum (front before ++ (ofChars inner ++ rear after)) [e] ∧
      ∀ t ∈ front before ++ (ofChars inner ++ rear after), t.isPlain := by
  have each : ∀ text ∈ [before, inner, after], Clean text := by simpa using pair.clean
  have text : [before, inner, after].flatten = before ++ (inner ++ after) := by simp
  have names : (ofChars [before, inner, after].flatten).filterMap name? =
      [before, inner, after].flatMap fun text => (ofChars text).filterMap name? := by
    rw [text, ← Parser.leaves_of_ofTokens same, ← List.flatMap_singleton Expr.leaves e,
      ← pair.read.leaves]
    simp [front, rear, names_seam, List.filterMap_cons, name?]
  have clean := clean_flatten each names
  have apart := scanAfter_flatten each names
  rw [text] at clean apart
  rw [← ofChars_bare pair.whole (by simpa using apart)]
  exact ⟨reads_of_ofTokens (Place.throughout_apart_insertProducts (Place.apart_of_due rfl))
    clean.isPlain same, clean.isPlain⟩

/-- Only the first operand of a sum is read the same without its parentheses. -/
theorem Pair.leads (pair : Pair before inner after e)
    (same : Expr.ofTokens (ofChars (before ++ (inner ++ after))) = .ok e) : Leads before after := by
  obtain ⟨bare, plain⟩ := pair.bare same
  cases pair.kept with
  | tighter joined follows tighter =>
    exact absurd tighter (not_tighter pair.read bare plain joined follows)
  | behindGate joined sum precedes gated =>
    exact absurd gated (not_behind_gate pair.read bare plain joined sum precedes)
  | beforeSum joined sum follows level =>
    refine ⟨?_, rear_sum pair.clean.2.2 follows level⟩
    rcases front_cases pair.clean.1 with empty | opens | ⟨lead, outer, g, precedes, gated⟩
    · exact .inl empty
    · exact .inr opens
    · exact absurd gated (not_behind_gate pair.read bare plain joined sum precedes)

theorem exists_mark :
    ∀ c ∈ ['+', '^', '⊙'], ∃ m : GateMark, m.char = c ∧ m.gate.precedence = 2 := by
  simp only [List.forall_mem_cons]
  exact ⟨⟨.plus, rfl, rfl⟩, ⟨.caret, rfl, rfl⟩, ⟨.circledDot, rfl, rfl⟩, nofun⟩

theorem openWord_of_opens (opens : text = [] ∨ ∃ lead, text = lead ++ ['(']) :
    openWord [] text = [] := by
  rcases opens with rfl | ⟨lead, rfl⟩
  · rfl
  · have stops : prolongs (openWord [] lead) '(' = false := not_prolongs_of_not_alphanum (by decide)
    rw [openWord_concat, stops, if_neg Bool.false_ne_true]

/-- Without its parentheses the first operand of a sum is read the same. -/
theorem Pair.same (pair : Pair before inner after e) (leads : Leads before after) :
    Expr.ofTokens (ofChars (before ++ (inner ++ after))) = .ok e := by
  obtain ⟨opens, c, mark, behind, rfl⟩ := leads
  obtain ⟨m, rfl, sum⟩ := exists_mark c mark
  have outside : m.char.isAlphanum = false := by cases m <;> decide
  have apart : scanAfter [] (before ++ (inner ++ m.char :: behind)) =
      scanAfter [] before ++ (scanAfter [] inner ++ scanAfter [] (m.char :: behind)) := by
    rw [scanAfter_append_of_closed _ (openWord_of_opens opens), scanAfter_append_of_stop]
    intro c first
    obtain rfl := Option.some.inj first
    exact not_prolongs_of_not_alphanum outside
  have read := Expr.ofTokens_of_reads pair.read
  obtain ⟨op, joined⟩ := pair.kept.joined
  rw [rear_mark] at read
  rw [ofChars_bare pair.whole apart, rear_mark, ← read]
  generalize ofChars inner = ts at joined ⊢
  cases joined with
  | intro _ _ whole =>
    exact (Parser.ofTokens_grouped (front_of_opens opens) whole rfl sum _).symm

end

end Switching.Printer

namespace Switching.Expr

open Token Printer

theorem exists_toList {P : List Char → Prop} : (∃ text, P text) ↔ ∃ text : String, P text.toList :=
  ⟨fun ⟨text, holds⟩ => ⟨String.ofList text, by rwa [String.toList_ofList]⟩,
    fun ⟨text, holds⟩ => ⟨text.toList, holds⟩⟩

theorem leads_iff (before after : String) : Leads before.toList after.toList ↔
    (before = "" ∨ ∃ lead, before = lead ++ "(") ∧
      ∃ mark ∈ ["+", "^", "⊙"], ∃ behind, after = mark ++ behind := by
  have starts (c : Char) : (∃ behind, after.toList = c :: behind) ↔
      ∃ behind, after = c.toString ++ behind := by
    rw [exists_toList]
    refine exists_congr fun behind => ?_
    rw [← String.toList_inj, String.toList_append]
    simp
  rw [Leads, exists_toList, String.toList_eq_nil_iff]
  refine and_congr (or_congr Iff.rfl (exists_congr fun lead => ?_)) ?_
  · rw [← String.toList_inj, String.toList_append]
    rfl
  · simp only [starts, List.mem_cons, List.not_mem_nil, or_false, exists_eq_or_imp, exists_eq_left]
    rfl

/-- Written text without two matching parentheses is not read as before, unless they hold the first
operand of a sum: then nothing or another parenthesis opens in front of them, and the mark of the
sum stands behind. -/
theorem parse_without_parentheses (style : Style) {e : Expr} (legible : e.Legible)
    {before inner after : String} (text : e.print style = before ++ "(" ++ inner ++ ")" ++ after)
    (matching : Balanced '(' ')' inner.toList) :
    parse (before ++ inner ++ after) = parse (e.print style) ↔
      (before = "" ∨ ∃ lead, before = lead ++ "(") ∧
        ∃ mark ∈ ["+", "^", "⊙"], ∃ behind, after = mark ++ behind := by
  have split : (forms style e).plain.text =
      before.toList ++ '(' :: (inner.toList ++ ')' :: after.toList) := by
    have chars := congrArg String.toList text
    rw [print, String.toList_ofList] at chars
    simpa using chars
  have bare : parse (before ++ inner ++ after) =
      ofTokens (ofChars (before.toList ++ (inner.toList ++ after.toList))) := by
    rw [parse, ofText]
    simp [ofChars]
  have pair := (written_forms style legible).1.pair split matching
    (spells_forms style legible).plain.reads_sum
  rw [← leads_iff, bare, parse_print style legible]
  exact ⟨pair.leads, pair.same⟩

/-- The first sum can stand bare, but neither of the groups under the negation. -/
theorem parse_without_parentheses_of_three_groups :
    let e := Expr.gate .or [.gate .xor [.var "a", .var "b"],
      .gate .nand [.gate .or [.var "o", .var "r"], .var "x1"]]
    e.Legible ∧ e.print .compact = "(a^b)+((o+r)x1)'" ∧
    Balanced '(' ')' "a^b".toList ∧ Balanced '(' ')' "(o+r)x1".toList ∧
    Balanced '(' ')' "o+r".toList ∧
    parse ("" ++ "a^b" ++ "+((o+r)x1)'") = parse (e.print .compact) ∧
    parse ("(a^b)+" ++ "(o+r)x1" ++ "'") ≠ parse (e.print .compact) ∧
    parse ("(a^b)+(" ++ "o+r" ++ "x1)'") ≠ parse (e.print .compact) := by
  intro e
  have legible : e.Legible := by decide
  have first : e.print .compact = "" ++ "(" ++ "a^b" ++ ")" ++ "+((o+r)x1)'" := by decide
  have second : e.print .compact = "(a^b)+" ++ "(" ++ "(o+r)x1" ++ ")" ++ "'" := by decide
  have third : e.print .compact = "(a^b)+(" ++ "(" ++ "o+r" ++ ")" ++ "x1)'" := by decide
  have leading : Balanced '(' ')' "a^b".toList := by decide
  have negated : Balanced '(' ')' "(o+r)x1".toList := by decide
  have factor : Balanced '(' ')' "o+r".toList := by decide
  refine ⟨legible, by decide, leading, negated, factor, ?_, ?_, ?_⟩
  · exact (parse_without_parentheses .compact legible first leading).mpr
      ⟨.inl rfl, "+", by decide, "((o+r)x1)'", rfl⟩
  · have kept := (parse_without_parentheses .compact legible second negated).mp.mt
    rw [← leads_iff] at kept
    exact kept (by simp [Leads])
  · have kept := (parse_without_parentheses .compact legible third factor).mp.mt
    rw [← leads_iff] at kept
    exact kept (by simp [Leads])

end Switching.Expr
