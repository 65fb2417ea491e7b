import Switching.Proofs.Text.Coverage
import Switching.Proofs.Text.RoundTrip

/-! The pieces that written text is put together from, apart from the expressions they come from.
Whatever is kept when pieces are negated and joined holds of all that is written in either style,
and the tokens of joined pieces are theirs with one mark between each two. -/
namespace Switching.Printer

open Token Switching.Expr

inductive Written : Piece → Prop
  | name {name} : isLegible name → Written ⟨name.toList, .atom⟩
  | negate {p} : Written p → Written p.negate
  | product {ps} : 2 ≤ ps.length → (∀ p ∈ ps, Written p) → Written (product ps)
  | sum {m ps} : m ∈ [GateMark.plus, .caret, .circledDot] → 2 ≤ ps.length →
      (∀ p ∈ ps, Written p) → Written (sum m ps)

theorem written_constant (value : Bool) : Written ⟨[if value then '1' else '0'], .atom⟩ := by
  cases value with
  | false => exact .name (show isLegible "0" by decide)
  | true => exact .name (show isLegible "1" by decide)

theorem written_gate (style : Style) (g : Gate) {fs : List Forms}
    (written : ∀ f ∈ fs, Written f.plain ∧ Written f.negated) : Written (gate style g fs) := by
  match fs, written with
  | [], _ => exact written_constant _
  | [f], written =>
    have plain := (written f List.mem_cons_self).1
    rw [gate]
    split
    · exact plain.negate
    · exact plain
  | f :: f' :: fs, written =>
    have several (part : Forms → Piece) : 2 ≤ ((f :: f' :: fs).map part).length := by simp
    have plain : ∀ p ∈ (f :: f' :: fs).map Forms.plain, Written p :=
      List.forall_mem_map.mpr fun f listed => (written f listed).1
    have negated : ∀ p ∈ (f :: f' :: fs).map Forms.negated, Written p :=
      List.forall_mem_map.mpr fun f listed => (written f listed).2
    cases g with
    | and => exact .product (several _) plain
    | or | xor => exact .sum (by decide) (several _) plain
    | xnor =>
      cases fs with
      | nil => exact .sum (by decide) (several _) plain
      | cons third fs => exact .negate (.sum (by decide) (several _) plain)
    | nand =>
      cases style with
      | compact => exact .negate (.product (several _) plain)
      | expanded => exact .sum (by decide) (several _) negated
    | nor =>
      cases style with
      | compact => exact .negate (.sum (by decide) (several _) plain)
      | expanded => exact .product (several _) negated

theorem written_forms (style : Style) {e : Expr} (legible : e.Legible) :
    Written (forms style e).plain ∧ Written (forms style e).negated := by
  induction e with
  | var name =>
    have written : Written ⟨name.toList, .atom⟩ := .name (legible name (by simp))
    exact ⟨written, written.negate⟩
  | not e ih =>
    obtain ⟨plain, -⟩ := ih legible
    exact ⟨plain.negate, plain⟩
  | gate g es ih =>
    have written : Written (gate style g (es.map (forms style))) := by
      apply written_gate
      rw [List.forall_mem_map]
      intro e listed
      apply ih e listed
      intro name leaf
      exact legible name (by simpa using ⟨e, listed, leaf⟩)
    rw [forms_gate]
    exact ⟨written, written.negate⟩

section

variable {p : Piece} {ps : List Piece} {m : GateMark}

theorem exists_forall₂ {α β : Type} {R : α → β → Prop} {as : List α}
    (each : ∀ a ∈ as, ∃ b, R a b) : ∃ bs, List.Forall₂ R as bs := by
  induction as with
  | nil => exact ⟨[], .nil⟩
  | cons a as ih =>
    rw [List.forall_mem_cons] at each
    obtain ⟨b, first⟩ := each.1
    obtain ⟨bs, rest⟩ := ih each.2
    exact ⟨b :: bs, .cons first rest⟩

theorem ne_nil_of_several (several : 2 ≤ ps.length) : ps ≠ [] :=
  List.ne_nil_of_length_pos (Nat.lt_of_lt_of_le Nat.zero_lt_two several)

theorem precedence_of_mem (listed : m ∈ [GateMark.plus, .caret, .circledDot]) :
    m.gate.precedence = 2 := by
  cases m <;> simp_all [GateMark.gate, Gate.precedence]

theorem Written.exists_spells (written : Written p) : ∃ o, Spells p o := by
  induction written with
  | name legible => exact ⟨_, spells_name legible⟩
  | negate _ ih =>
    obtain ⟨o, spells⟩ := ih
    exact ⟨o.negate, spells.negate⟩
  | product several _ ih =>
    obtain ⟨os, spelled⟩ := exists_forall₂ ih
    exact ⟨_, spells_product spelled (ne_nil_of_several several)⟩
  | sum listed several _ ih =>
    obtain ⟨os, spelled⟩ := exists_forall₂ ih
    exact ⟨_, spells_sum (precedence_of_mem listed) spelled (ne_nil_of_several several)⟩

theorem whole_product (written : ∀ p ∈ ps, Written p) (given : ps ≠ []) :
    Whole (ofChars (product ps).text) := by
  obtain ⟨os, spelled⟩ := exists_forall₂ fun p listed => (written p listed).exists_spells
  exact (spells_product spelled given).whole

theorem Written.whole_asFactor (written : Written p) : Whole (ofChars p.asFactor) := by
  obtain ⟨o, spells⟩ := written.exists_spells
  exact spells.asFactor.1

theorem ofChars_joinFactors_of_whole {left right : List Char} (before : Whole (ofChars left))
    (behind : Whole (ofChars right)) :
    ofChars (joinFactors left right) = ofChars left ++ Token.product :: ofChars right := by
  obtain ⟨a, last, ends⟩ := before.last
  obtain ⟨b, first, starts⟩ := behind.first
  exact ofChars_joinFactors last ends first starts

theorem intercalate_append {α : Type} (sep as bs : List α) (rest : List (List α)) :
    sep.intercalate ((as ++ sep ++ bs) :: rest) = sep.intercalate (as :: bs :: rest) := by
  cases rest with
  | nil => simp [List.intercalate_cons_cons]
  | cons cs rest => simp [List.intercalate_cons_cons]

/-- Factors that are joined to a text read as a product of what they read as alone. -/
theorem ofChars_foldl_joinFactors {text : List Char} {factors : List (List Char)}
    (before : Whole (ofChars text)) (each : ∀ factor ∈ factors, Whole (ofChars factor)) :
    ofChars (factors.foldl joinFactors text) =
      [Token.product].intercalate (ofChars text :: factors.map ofChars) := by
  induction factors generalizing text with
  | nil => simp
  | cons factor factors ih =>
    rw [List.forall_mem_cons] at each
    have joined := ofChars_joinFactors_of_whole before each.1
    have whole : Whole (ofChars (joinFactors text factor)) := by
      rw [joined]
      exact before.between Token.product each.1
    rw [List.foldl_cons, ih whole each.2, joined, List.map_cons]
    exact (congrArg (fun ts => [Token.product].intercalate (ts :: factors.map ofChars))
      (List.append_cons _ _ _)).trans (intercalate_append _ _ _ _)

theorem ofChars_product (written : ∀ p ∈ ps, Written p) :
    ofChars (product ps).text =
      [Token.product].intercalate (ps.map fun p => ofChars p.asFactor) := by
  cases ps with
  | nil => rfl
  | cons p ps =>
    rw [List.forall_mem_cons] at written
    have whole : ∀ factor ∈ ps.map Piece.asFactor, Whole (ofChars factor) :=
      List.forall_mem_map.mpr fun p listed => (written.2 p listed).whole_asFactor
    have joined := ofChars_foldl_joinFactors written.1.whole_asFactor whole
    rw [List.map_map] at joined
    exact joined

theorem ofChars_sum (m : GateMark) (ps : List Piece) :
    ofChars (sum m ps).text =
      [Token.operator (.mark m)].intercalate (ps.map fun p => ofChars (p.asTerm m)) := by
  induction ps with
  | nil => rfl
  | cons p ps ih =>
    cases ps with
    | nil => simp [sum]
    | cons q ps =>
      have text : (sum m (p :: q :: ps)).text = p.asTerm m ++ m.char :: (sum m (q :: ps)).text := by
        simp [sum, List.intercalate_cons_cons]
      rw [text, ofChars_mark, ih]
      simp [List.intercalate_cons_cons]

end

/-- The characters of written text besides the letters and digits of names. -/
def marks : List Char := ['\'', '*', '+', '^', '⊙', '(', ')']

theorem of_mem_marks {c : Char} (mark : c ∈ marks) :
    c.isAlphanum = false ∧ (ofChar? c).isSome := by
  simp only [marks, List.mem_cons, List.not_mem_nil, or_false] at mark
  rcases mark with rfl | rfl | rfl | rfl | rfl | rfl | rfl <;> exact ⟨by decide, rfl⟩

/-- Text in which every letter and digit belongs to a name. -/
structure Clean (text : List Char) : Prop where
  covered : Covered text
  known : ∀ c ∈ text, c.isAlphanum ∨ c ∈ marks

section

variable {left right text : List Char} {texts : List (List Char)} {c : Char} {p : Piece}
  {ps : List Piece} {m : GateMark}

theorem covered_iff : Covered text ↔ letters (ofChars text) = text.filter Char.isAlphanum := by
  rw [Covered, letters, letters, ofChars, names_insertProducts]

/-- The tokens of clean text spell it, and none of them is a gate word. -/
theorem Clean.scan (clean : Clean text) : spelling (scanAfter [] text) = text ∧
    (∀ g, .operator (.word g) ∉ scanAfter [] text) ∧ ∀ t ∈ scanAfter [] text, t.Shown := by
  have known : ∀ c ∈ text, c.isAlphanum ∨ (ofChar? c).isSome :=
    fun c listed => (clean.known c listed).imp_right fun mark => (of_mem_marks mark).2
  obtain ⟨spelled, wordless⟩ := spelling_scanAfter clean.covered known
  refine ⟨spelled, wordless, fun t listed => shown_of_wordless ?_ ?_⟩
  · rintro name rfl
    exact legible_of_mem_scanAfter ⟨by simp, by simp⟩ listed
  · rintro g rfl
    exact wordless g listed

theorem clean_nil : Clean [] := ⟨rfl, by simp⟩

theorem clean_append_mark (mark : c ∈ marks) :
    Clean (left ++ c :: right) ↔ Clean left ∧ Clean right := by
  have outside := (of_mem_marks mark).1
  constructor
  · rintro ⟨covered, known⟩
    obtain ⟨first, second⟩ := covered.parts outside
    rw [List.forall_mem_append, List.forall_mem_cons] at known
    exact ⟨⟨first, known.1⟩, ⟨second, known.2.2⟩⟩
  · rintro ⟨first, second⟩
    refine ⟨first.covered.join outside second.covered, ?_⟩
    rw [List.forall_mem_append, List.forall_mem_cons]
    exact ⟨first.known, .inr mark, second.known⟩

theorem Clean.quote (clean : Clean text) : Clean (text ++ ['\'']) :=
  (clean_append_mark (by decide)).mpr ⟨clean, clean_nil⟩

theorem Clean.parenthesized (clean : Clean p.text) : Clean p.parenthesized := by
  have closed : Clean (p.text ++ ')' :: []) :=
    (clean_append_mark (by decide)).mpr ⟨clean, clean_nil⟩
  have opened : Clean ([] ++ '(' :: (p.text ++ [')'])) :=
    (clean_append_mark (by decide)).mpr ⟨clean_nil, closed⟩
  exact opened

theorem Clean.asFactor (clean : Clean p.text) : Clean p.asFactor := by
  rw [Piece.asFactor]
  split
  · exact clean.parenthesized
  · exact clean

theorem Clean.asTerm (clean : Clean p.text) : Clean (p.asTerm m) := by
  rw [Piece.asTerm]
  split
  · split
    · exact clean
    · exact clean.parenthesized
  · exact clean

/-- Texts side by side are clean if reading them together finds their names. -/
theorem clean_flatten (each : ∀ text ∈ texts, Clean text)
    (same : (ofChars texts.flatten).filterMap name? =
      texts.flatMap fun text => (ofChars text).filterMap name?) : Clean texts.flatten := by
  constructor
  · rw [covered_iff, letters, same, List.flatMap_assoc, List.filter_flatten, ← List.flatMap_def]
    exact List.flatMap_congr fun text listed => covered_iff.mp (each text listed).covered
  · intro c listed
    obtain ⟨text, member, inside⟩ := List.mem_flatten.mp listed
    exact (each text member).known c inside

/-- And then they are scanned apart. -/
theorem scanAfter_flatten (each : ∀ text ∈ texts, Clean text)
    (same : (ofChars texts.flatten).filterMap name? =
      texts.flatMap fun text => (ofChars text).filterMap name?) :
    scanAfter [] texts.flatten = texts.flatMap (scanAfter []) := by
  obtain ⟨spelled, -, shown⟩ := (clean_flatten each same).scan
  apply eq_of_spelling shown
  · intro t listed
    obtain ⟨text, member, inside⟩ := List.mem_flatMap.mp listed
    exact (each text member).scan.2.2 t inside
  · simp only [ofChars, names_insertProducts] at same
    rw [same, List.filterMap_flatMap]
  · rw [spelled, spelling, List.flatMap_assoc, List.flatten_eq_flatMap]
    exact List.flatMap_congr fun text listed => (each text listed).scan.1.symm

theorem Clean.append (first : Clean left) (second : Clean right)
    (same : ofChars (left ++ right) = ofChars left ++ Token.product :: ofChars right) :
    Clean (left ++ right) ∧
      scanAfter [] (left ++ right) = scanAfter [] left ++ scanAfter [] right := by
  have each : ∀ text ∈ [left, right], Clean text := by simp [first, second]
  have names : (ofChars [left, right].flatten).filterMap name? =
      [left, right].flatMap fun text => (ofChars text).filterMap name? := by
    simp [same, List.filterMap_cons, Token.product, name?]
  exact ⟨by simpa using clean_flatten each names, by simpa using scanAfter_flatten each names⟩

theorem Clean.joinFactors (first : Clean left) (second : Clean right)
    (before : Whole (ofChars left)) (behind : Whole (ofChars right)) :
    Clean (joinFactors left right) := by
  have joined := ofChars_joinFactors_of_whole before behind
  by_cases star : needsStar left right
  · rw [Printer.joinFactors, if_pos star]
    exact (clean_append_mark (by decide)).mpr ⟨first, second⟩
  · rw [Printer.joinFactors, if_neg star] at joined ⊢
    exact (first.append second joined).1

theorem clean_foldl_joinFactors (clean : Clean text) (whole : Whole (ofChars text))
    (each : ∀ factor ∈ texts, Clean factor ∧ Whole (ofChars factor)) :
    Clean (texts.foldl Printer.joinFactors text) := by
  induction texts generalizing text with
  | nil => exact clean
  | cons factor texts ih =>
    rw [List.forall_mem_cons] at each
    refine ih (clean.joinFactors each.1.1 whole each.1.2) ?_ each.2
    rw [ofChars_joinFactors_of_whole whole each.1.2]
    exact whole.between Token.product each.1.2

theorem clean_intercalate (mark : c ∈ marks) (each : ∀ text ∈ texts, Clean text) :
    Clean ([c].intercalate texts) := by
  induction texts with
  | nil => exact clean_nil
  | cons text texts ih =>
    rw [List.forall_mem_cons] at each
    cases texts with
    | nil => simpa using each.1
    | cons other texts =>
      rw [List.intercalate_cons_cons, List.append_assoc, List.singleton_append]
      exact (clean_append_mark mark).mpr ⟨each.1, ih each.2⟩

theorem clean_name {name : String} (legible : isLegible name) : Clean name.toList := by
  have scanned := ofChars_name legible
  have run := isAlphanum_of_isLegible legible
  constructor
  · rw [covered_iff, scanned, List.filter_eq_self.mpr run]
    simp [letters, name?]
  · exact fun c listed => .inl (run c listed)

theorem clean_product (written : ∀ p ∈ ps, Written p) (clean : ∀ p ∈ ps, Clean p.text) :
    Clean (product ps).text := by
  cases ps with
  | nil => exact clean_nil
  | cons p ps =>
    rw [List.forall_mem_cons] at written clean
    have text : (Printer.product (p :: ps)).text =
      (ps.map Piece.asFactor).foldl Printer.joinFactors p.asFactor := rfl
    rw [text]
    refine clean_foldl_joinFactors clean.1.asFactor written.1.whole_asFactor ?_
    rw [List.forall_mem_map]
    exact fun p listed => ⟨(clean.2 p listed).asFactor, (written.2 p listed).whole_asFactor⟩

theorem Written.clean (written : Written p) : Clean p.text := by
  induction written with
  | name legible => exact clean_name legible
  | @negate p _ clean =>
    rw [Piece.negate]
    split
    · exact clean.quote
    · exact clean.parenthesized.quote
  | product _ written clean => exact clean_product written clean
  | @sum m ps listed _ _ clean =>
    have mark : m.char ∈ marks := by
      revert m
      decide
    apply clean_intercalate mark
    rw [List.forall_mem_map]
    exact fun p listed => (clean p listed).asTerm

end

end Switching.Printer
