import Switching.Proofs.Text.Written

/-! Where factors are kept apart. A star is written exactly between texts whose tokens would not be
those of the two texts alone with a product between them, and between two constants, which would
be told apart without it. -/
namespace Switching

namespace Token

def IsConstant (t : Token) : Prop := t = .var "0" ∨ t = .var "1"

section

variable {left right run text : List Char} {ts : List Token} {t : Token} {c d : Char}

theorem isConstant_of_ofChar? (token : ofChar? c = some t) (run : c.isAlphanum) : t.IsConstant := by
  unfold ofChar? at token
  split at token
  case h_4 =>
    cases token
    exact .inl rfl
  case h_5 =>
    cases token
    exact .inr rfl
  case h_6 =>
    unfold Operator.ofChar? at token
    split at token
    case h_10 => cases token
    all_goals exact absurd run (by decide)
  all_goals exact absurd run (by decide)

/-- A digit that prolongs no word is a constant, if it belongs to a name at all. -/
theorem Covered.isConstant (covered : Covered (left ++ c :: right)) (run : c.isAlphanum)
    (stops : prolongs (openWord [] left) c = false) : ∃ t, ofChar? c = some t ∧ t.IsConstant := by
  obtain ⟨-, own, -⟩ := covered.parts_of_stop stops
  cases token : ofChar? c with
  | none => simp [token, run] at own
  | some t => exact ⟨t, rfl, isConstant_of_ofChar? token run⟩

theorem isAlphanum_of_isDigit (digit : c.isDigit) : c.isAlphanum := by
  simp [Char.isAlphanum, digit]

theorem exists_constant_of_digit (covered : Covered text) (starts : text = c :: run)
    (digit : c.isDigit) : ∃ t, (scanAfter [] text).head? = some t ∧ t.IsConstant := by
  have stops : prolongs (openWord [] []) c = false := by
    simp [prolongs, openWord, not_letter_of_digit digit]
  have scanned := scanAfter_append_cons [] run stops
  rw [List.nil_append, ← starts] at scanned
  have covered : Covered ([] ++ c :: run) := starts ▸ covered
  obtain ⟨t, token, constant⟩ := covered.isConstant (isAlphanum_of_isDigit digit) stops
  exact ⟨t, by simp [scanned, token, scanAfter], constant⟩

/-- A run at the end that leaves no word open ends in a constant. -/
theorem exists_constant_of_closed (covered : Covered text) (closed : openWord [] text = [])
    (ends : tailRun text ≠ []) : ∃ t, (scanAfter [] text).getLast? = some t ∧ t.IsConstant := by
  rcases List.eq_nil_or_concat text with rfl | ⟨before, d, rfl⟩
  · exact absurd rfl ends
  · rw [List.concat_eq_append] at covered closed ends ⊢
    have run : d.isAlphanum := by
      by_contra other
      exact ends (by rw [tailRun_concat, if_neg other])
    have stops : prolongs (openWord [] before) d = false := by
      by_contra longer
      rw [Bool.not_eq_false] at longer
      simp [openWord_concat, longer] at closed
    obtain ⟨t, token, constant⟩ := covered.isConstant run stops
    exact ⟨t, by simp [scanAfter_append_cons before [] stops, token, scanAfter], constant⟩

theorem exists_digit_of_isConstant (constant : t.IsConstant) :
    ∃ c, t.text.toList = [c] ∧ c.isDigit := by
  rcases constant with rfl | rfl
  · exact ⟨'0', rfl, rfl⟩
  · exact ⟨'1', rfl, rfl⟩

theorem tailRun_ne_nil (spelled : spelling ts = text) (last : ts.getLast? = some t)
    (constant : t.IsConstant) : tailRun text ≠ [] := by
  obtain ⟨c, shown, digit⟩ := exists_digit_of_isConstant constant
  obtain ⟨before, rfl⟩ := List.getLast?_eq_some_iff.mp last
  rw [← spelled, spelling_append, spelling_cons, shown]
  simp [spelling, tailRun_concat, isAlphanum_of_isDigit digit]

theorem exists_digit_of_first (spelled : spelling ts = text) (first : ts.head? = some t)
    (constant : t.IsConstant) :
    ∃ c run, text.takeWhile Char.isAlphanum = c :: run ∧ c.isDigit := by
  obtain ⟨c, shown, digit⟩ := exists_digit_of_isConstant constant
  obtain ⟨rest, rfl⟩ := List.head?_eq_some_iff.mp first
  refine ⟨c, (spelling rest).takeWhile Char.isAlphanum, ?_, digit⟩
  rw [← spelled, spelling_cons, shown, List.singleton_append,
    List.takeWhile_cons_of_pos (isAlphanum_of_isDigit digit)]

/-- Digits at the beginning of a word are never split off from it. -/
theorem not_isConstant_of_mem_ofWord {word : List Char} (opened : IsWord word)
    (listed : t ∈ ofWord word) : ¬ t.IsConstant := by
  cases spelled : Gate.ofLetters? word with
  | some g =>
    obtain rfl : t = .operator (.word g) := by simpa [ofWord, spelled] using listed
    rintro (same | same) <;> cases same
  | none =>
    simp only [ofWord, spelled, List.mem_map] at listed
    obtain ⟨name, member, rfl⟩ := listed
    obtain ⟨c, digits, rfl, letter, -⟩ := shape_of_mem_splitNames opened.1 opened.2 member
    have first := not_digit_of_letter letter
    rintro (same | same)
    all_goals
      have chars := congrArg String.toList (Token.var.inj same)
      rw [String.toList_ofList] at chars
      obtain ⟨rfl, -⟩ := List.cons.inj chars
      exact absurd first (by decide)

/-- A constant behind a word is not part of it, however the word goes on. -/
theorem ofWord_append_ne {word : List Char} {us : List Token} (opened : IsWord word)
    (started : word ≠ []) (alphanumeric : ∀ d ∈ c :: run, d.isAlphanum)
    (plain : Gate.ofLetters? word = none) (plainLonger : Gate.ofLetters? (word ++ c :: run) = none)
    (constant : t.IsConstant) : ofWord (word ++ c :: run) ++ ts ≠ ofWord word ++ t :: us := by
  intro same
  have longer : (spelling (ofWord word)).length <
      (spelling (ofWord (word ++ c :: run))).length := by
    rw [spelling_ofWord plain, spelling_ofWord plainLonger, List.length_append, List.length_cons]
    omega
  rcases List.append_eq_append_iff.mp same with ⟨extra, shorter, -⟩ | ⟨extra, split, behind⟩
  · rw [shorter, spelling_append, List.length_append] at longer
    omega
  · cases extra with
    | nil =>
      rw [split, List.append_nil] at longer
      omega
    | cons u extra =>
      obtain ⟨rfl, -⟩ := List.cons.inj behind
      have inside : t ∈ ofWord (word ++ c :: run) := by simp [split]
      exact not_isConstant_of_mem_ofWord (opened.append started alphanumeric) inside constant

theorem ofLetters?_of_wordless {word : List Char}
    (wordless : ∀ g, .operator (.word g) ∉ ofWord word) : Gate.ofLetters? word = none := by
  cases spelled : Gate.ofLetters? word with
  | none => rfl
  | some g => exact absurd (by simp [ofWord, spelled]) (wordless g)

/-- A run that would prolong the open word, or spell a gate with it, is told by the tokens. -/
theorem needsStar_of_apart (closing : openWord [] left ≠ [])
    (opening : right.takeWhile Char.isAlphanum = c :: run) (covered : Covered right)
    (wordless : ∀ g, .operator (.word g) ∉ scanAfter [] left ++ scanAfter [] right)
    (apart : scanAfter [] (left ++ right) = scanAfter [] left ++ scanAfter [] right) :
    Printer.needsStar left right = false := by
  obtain ⟨alphanumeric, stops, divided⟩ := run_of_takeWhile opening
  have prolonged := scanAfter_run closing alphanumeric stops
  rw [divided] at prolonged
  rw [scanAfter_append, prolonged, scanAfter_eq [] left, List.append_assoc,
    List.append_cancel_left_eq] at apart
  rw [scanAfter_eq [] left, List.append_assoc] at wordless
  have plain : Gate.ofLetters? (openWord [] left) = none := ofLetters?_of_wordless fun g listed =>
    wordless g (by simp [listed])
  have plainLonger : Gate.ofLetters? (openWord [] left ++ c :: run) = none :=
    ofLetters?_of_wordless fun g listed => by
      have inside := List.mem_append_left (scanAfter [] (right.dropWhile Char.isAlphanum)) listed
      rw [apart] at inside
      exact wordless g (List.mem_append_right _ inside)
  rw [needsStar_eq closing opening, plainLonger, Option.isSome_none, Bool.or_false]
  refine Bool.eq_false_iff.mpr fun digit => ?_
  obtain ⟨t, head, constant⟩ := exists_constant_of_digit covered divided.symm digit
  obtain ⟨behind, first⟩ := List.head?_eq_some_iff.mp head
  rw [first] at apart
  exact ofWord_append_ne (isWord_openWord ⟨by simp, by simp⟩ left) closing alphanumeric plain
    plainLonger constant apart

end

end Token

namespace Printer

open Token

/-- Two texts side by side whose tokens are not theirs with a product between them, or are so
only because one constant does not prolong the other. -/
def Misread (left right : List Char) : Prop :=
  ofChars (left ++ right) ≠ ofChars left ++ Token.product :: ofChars right ∨
    (∃ t, (ofChars left).getLast? = some t ∧ t.IsConstant) ∧
      ∃ t, (ofChars right).head? = some t ∧ t.IsConstant

section

variable {left right : List Char} {ps : List Piece} {c : Char}

theorem needsStar_of_misread (first : Clean left) (second : Clean right)
    (before : Whole (ofChars left)) (behind : Whole (ofChars right))
    (misread : Misread left right) : needsStar left right := by
  by_contra bare
  rcases misread with differs | ⟨⟨t, last, constant⟩, u, head, constantRight⟩
  · have joined := ofChars_joinFactors_of_whole before behind
    rw [joinFactors, if_neg bare] at joined
    exact differs joined
  · rw [ofChars, getLast?_insertProducts] at last
    rw [ofChars, head?_insertProducts] at head
    have tail := tailRun_ne_nil first.scan.1 last constant
    obtain ⟨c, run, opening, digit⟩ := exists_digit_of_first second.scan.1 head constantRight
    obtain ⟨d, rest, shape⟩ := List.exists_cons_of_ne_nil tail
    have shown : (left.reverse.takeWhile Char.isAlphanum).reverse = d :: rest := shape
    simp [needsStar, shown, opening, digit] at bare

theorem needsStar_cases (star : needsStar left right) : tailRun left ≠ [] ∧
    ∃ c run, right.takeWhile Char.isAlphanum = c :: run ∧
      (c.isDigit ∨ (Gate.ofLetters? (openWord [] left ++ c :: run)).isSome) := by
  rw [openWord_nil_eq]
  unfold needsStar at star
  dsimp only at star
  split at star
  · cases star
  · cases star
  · rename_i c run opening ends
    refine ⟨ends, c, run, opening, ?_⟩
    simpa [tailRun, opening] using star

theorem misread_of_needsStar (first : Clean left) (second : Clean right)
    (star : needsStar left right) : Misread left right := by
  by_contra read
  simp only [Misread, not_or, ne_eq, Classical.not_not] at read
  obtain ⟨same, different⟩ := read
  obtain ⟨ends, c, run, opening, collides⟩ := needsStar_cases star
  obtain ⟨alphanumeric, stops, divided⟩ := run_of_takeWhile opening
  obtain ⟨-, wordlessLeft, -⟩ := first.scan
  obtain ⟨-, wordlessRight, -⟩ := second.scan
  by_cases closed : openWord [] left = []
  · rcases collides with digit | spelled
    · apply different
      rw [ofChars, ofChars, getLast?_insertProducts, head?_insertProducts]
      exact ⟨exists_constant_of_closed first.covered closed ends,
        exists_constant_of_digit second.covered divided.symm digit⟩
    · rw [closed, List.nil_append] at spelled
      obtain ⟨g, spelled⟩ := Option.isSome_iff_exists.mp spelled
      rw [List.forall_mem_cons] at alphanumeric
      have letter := isAlpha_of_ofLetters? spelled c List.mem_cons_self
      have scanned := scanAfter_word letter alphanumeric.2 stops
      rw [divided, ofWord, spelled] at scanned
      exact wordlessRight g (by simp [scanned])
  · have bare := needsStar_of_apart closed opening second.covered
      (fun g listed => (List.mem_append.mp listed).elim (wordlessLeft g) (wordlessRight g))
      (first.append second same).2
    exact absurd star (Bool.eq_false_iff.mp bare)

theorem prefix_foldl_joinFactors (text : List Char) (factors : List (List Char)) :
    text <+: factors.foldl joinFactors text := by
  induction factors generalizing text with
  | nil => exact List.prefix_refl text
  | cons factor factors ih =>
    refine List.IsPrefix.trans ?_ (ih (joinFactors text factor))
    rw [joinFactors]
    split <;> exact List.prefix_append _ _

theorem product_concat_text (before : List Piece) (p : Piece) :
    (product (before ++ [p])).text = joinFactors (product before).text p.asFactor := by
  simp [product]

theorem prefix_product (before after : List Piece) :
    (product before).text <+: (product (before ++ after)).text := by
  rw [product, product, List.map_append, List.foldl_append]
  exact prefix_foldl_joinFactors _ _

/-- The tokens of a piece as a factor, between parentheses if it is a sum. -/
def Piece.factorTokens (p : Piece) : List Token :=
  match p.binding with
  | .sum _ => .leftParen :: ofChars p.text ++ [.rightParen]
  | _ => ofChars p.text

theorem ofChars_asFactor (p : Piece) : ofChars p.asFactor = p.factorTokens := by
  obtain ⟨text, binding⟩ := p
  cases binding with
  | atom | product => rfl
  | sum m => exact ofChars_parenthesized _

/-- The writing of an expression or of its complement. -/
def Rendered (style : Style) (p : Piece) : Prop :=
  ∃ e : Expr, e.Legible ∧ (p = (forms style e).plain ∨ p = (forms style e).negated)

theorem Rendered.written {style : Style} {p : Piece} (rendered : Rendered style p) :
    Written p := by
  obtain ⟨e, legible, rfl | rfl⟩ := rendered
  · exact (written_forms style legible).1
  · exact (written_forms style legible).2

theorem joinFactors_iff_misread (first : Clean left) (second : Clean right)
    (before : Whole (ofChars left)) (behind : Whole (ofChars right)) :
    (Misread left right → joinFactors left right = left ++ '*' :: right) ∧
      (¬ Misread left right → joinFactors left right = left ++ right) := by
  have star : needsStar left right ↔ Misread left right :=
    ⟨misread_of_needsStar first second, needsStar_of_misread first second before behind⟩
  exact ⟨fun misread => if_pos (star.mpr misread), fun read => if_neg (mt star.mp read)⟩

/-- A product has the tokens of its factors, a sum between parentheses, and one product sign between
each two; and a star is written before a factor exactly where it would be misread behind the text
so far, or where two constants meet. -/
theorem product_separates_exactly (style : Style) {ps : List Piece}
    (rendered : ∀ p ∈ ps, Rendered style p) :
    ofChars (product ps).text = [Token.product].intercalate (ps.map Piece.factorTokens) ∧
    ∀ before p after, ps = before ++ p :: after → before ≠ [] →
      let soFar := (product before).text
      let longer := (product (before ++ [p])).text
      longer <+: (product ps).text ∧
        (Misread soFar p.asFactor → longer = soFar ++ '*' :: p.asFactor) ∧
        (¬ Misread soFar p.asFactor → longer = soFar ++ p.asFactor) := by
  have written : ∀ p ∈ ps, Written p := fun p listed => (rendered p listed).written
  constructor
  · rw [ofChars_product written]
    exact congrArg _ (List.map_congr_left fun p _ => ofChars_asFactor p)
  · rintro before p after rfl given soFar longer
    rw [List.forall_mem_append, List.forall_mem_cons] at written
    obtain ⟨early, late, -⟩ := written
    have clean : Clean soFar := clean_product early fun p listed => (early p listed).clean
    have joined : longer = joinFactors soFar p.asFactor := product_concat_text before p
    rw [joined]
    refine ⟨?_, joinFactors_iff_misread clean late.clean.asFactor (whole_product early given)
      late.whole_asFactor⟩
    have begins := prefix_product (before ++ [p]) after
    rw [List.append_assoc, List.singleton_append] at begins
    exact joined ▸ begins

/-- Letters that would spell a gate are kept apart in the middle of a run, and constants from each
other, while a digit behind a quote needs no star. -/
theorem product_separates_letters_of_a_gate_and_constants :
    let es := [Expr.var "x", .var "o", .var "r", .not (.var "a"), .var "0", .var "1",
      .gate .or [.var "b", .var "c"]]
    let ps := es.map fun e => (forms .expanded e).plain
    (∀ p ∈ ps, Rendered .expanded p) ∧
    (product ps).text = "xo*ra'0*1(b+c)".toList ∧
    ofChars (product ps).text = [Token.product].intercalate (ps.map Piece.factorTokens) ∧
    ∀ before p after, ps = before ++ p :: after → before ≠ [] →
      let soFar := (product before).text
      let longer := (product (before ++ [p])).text
      longer <+: (product ps).text ∧
        (Misread soFar p.asFactor → longer = soFar ++ '*' :: p.asFactor) ∧
        (¬ Misread soFar p.asFactor → longer = soFar ++ p.asFactor) := by
  intro es ps
  have legible : ∀ e ∈ es, e.Legible := by decide
  have rendered : ∀ p ∈ ps, Rendered .expanded p :=
    List.forall_mem_map.mpr fun e listed => ⟨e, legible e listed, .inl rfl⟩
  exact ⟨rendered, by decide, product_separates_exactly .expanded rendered⟩

end

end Printer

end Switching
