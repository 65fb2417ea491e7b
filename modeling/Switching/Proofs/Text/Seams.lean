import Mathlib.Data.List.SplitBy
import Mathlib.Data.List.TakeWhile
import Switching.Expr.Printer
import Switching.Token.Scan

/-! Scanning across a seam between two texts. The word that is open at the seam
is all that the scanner carries over, so texts scan separately unless a letter
or digit prolongs that word. Products are inserted by looking at the two tokens
beside a seam only. -/
namespace Switching.Token

theorem not_digit_of_letter {c : Char} (letter : c.isAlpha) : c.isDigit = false := by
  unfold Char.isAlpha Char.isUpper Char.isLower at letter
  simp only [Char.isDigit, Bool.or_eq_true, Bool.and_eq_true, decide_eq_true_eq,
    Bool.and_eq_false_iff, decide_eq_false_iff_not, ge_iff_le, UInt32.le_iff_toNat_le] at letter ⊢
  have : 'A'.val.toNat = 65 := rfl
  have : 'a'.val.toNat = 97 := rfl
  have : '9'.val.toNat = 57 := rfl
  omega

theorem not_letter_of_digit {c : Char} (digit : c.isDigit) : c.isAlpha = false :=
  Bool.eq_false_iff.mpr fun letter => absurd digit (by simp [not_digit_of_letter letter])

/-- The word still open after some characters, read when `word` was open. -/
def openWord (word : List Char) : List Char → List Char
  | [] => word
  | c :: rest => if prolongs word c then openWord (word ++ [c]) rest else openWord [] rest

/-- The tokens finished by then. -/
def finished (word : List Char) : List Char → List Token
  | [] => []
  | c :: rest =>
    if prolongs word c then finished (word ++ [c]) rest
    else ofWord word ++ (ofChar? c).toList ++ finished [] rest

theorem scanAfter_append (word left right : List Char) :
    scanAfter word (left ++ right) =
      finished word left ++ scanAfter (openWord word left) right := by
  induction left generalizing word with
  | nil => rfl
  | cons c rest ih =>
    by_cases longer : prolongs word c
    · simp only [List.cons_append, scanAfter, finished, openWord, if_pos longer, ih]
    · simp only [List.cons_append, scanAfter, finished, openWord, if_neg longer, ih,
        List.append_assoc]

theorem scanAfter_eq (word text : List Char) :
    scanAfter word text = finished word text ++ ofWord (openWord word text) := by
  have split := scanAfter_append word text []
  rwa [List.append_nil] at split

theorem openWord_concat (word text : List Char) (c : Char) :
    openWord word (text ++ [c]) =
      if prolongs (openWord word text) c then openWord word text ++ [c] else [] := by
  induction text generalizing word with
  | nil => rfl
  | cons d rest ih =>
    by_cases longer : prolongs word d
    · simp only [List.cons_append, openWord, if_pos longer, ih]
    · simp only [List.cons_append, openWord, if_neg longer, ih]

/-- The letters and digits at the end of a text. -/
def tailRun (text : List Char) : List Char := (text.reverse.takeWhile Char.isAlphanum).reverse

theorem tailRun_concat (text : List Char) (c : Char) :
    tailRun (text ++ [c]) = if c.isAlphanum then tailRun text ++ [c] else [] := by
  by_cases run : c.isAlphanum <;> simp [tailRun, run]

/-- Digits in front of the first letter of a run stand for themselves. -/
theorem openWord_nil_eq (text : List Char) :
    openWord [] text = (tailRun text).dropWhile Char.isDigit := by
  induction text using List.reverseRecOn with
  | nil => rfl
  | append_singleton text c ih =>
    rw [openWord_concat, tailRun_concat]
    by_cases run : c.isAlphanum
    · rw [if_pos run, List.dropWhile_append, ← ih]
      cases before : openWord [] text with
      | nil =>
        by_cases letter : c.isAlpha
        · simp [prolongs, letter, not_digit_of_letter letter]
        · have digit : c.isDigit := by
            simpa [Char.isAlphanum, letter] using run
          simp [prolongs, letter, digit]
      | cons d rest =>
        have longer : prolongs (d :: rest) c := by
          simpa [prolongs, Char.isAlphanum] using run
        simp [longer]
    · have short : ¬ prolongs (openWord [] text) c := by
        simp only [Char.isAlphanum, Bool.or_eq_true, not_or, Bool.not_eq_true] at run
        simp [prolongs, run]
      rw [if_neg short, if_neg run]
      rfl

/-- Nothing crosses a seam whose right side leaves the open word alone. -/
theorem scanAfter_append_of_stop {left right : List Char}
    (stops : ∀ c, right.head? = some c → prolongs (openWord [] left) c = false) :
    scanAfter [] (left ++ right) = scanAfter [] left ++ scanAfter [] right := by
  rw [scanAfter_append, scanAfter_eq [] left, List.append_assoc]
  cases right with
  | nil => simp [scanAfter]
  | cons c rest =>
    have stop := stops c rfl
    have notLetter : prolongs [] c = false := by
      simp only [prolongs, Bool.or_eq_false_iff] at stop ⊢
      simp [stop.1]
    simp [scanAfter, stop, notLetter]

/-- A character that prolongs no word stands for its own token or for none. -/
theorem scanAfter_append_cons (left right : List Char) {c : Char}
    (stops : prolongs (openWord [] left) c = false) :
    scanAfter [] (left ++ c :: right) =
      scanAfter [] left ++ (ofChar? c).toList ++ scanAfter [] right := by
  have letterless : prolongs [] c = false := by
    simp only [prolongs, Bool.or_eq_false_iff] at stops
    simp [prolongs, stops.1]
  rw [scanAfter_append_of_stop (by simpa using stops), scanAfter,
    if_neg (Bool.eq_false_iff.mp letterless), ofWord_nil, List.nil_append, List.append_assoc]

theorem scanAfter_append_of_closed {left : List Char} (right : List Char)
    (closed : openWord [] left = []) :
    scanAfter [] (left ++ right) = scanAfter [] left ++ scanAfter [] right := by
  rw [scanAfter_append, scanAfter_eq [] left, closed, ofWord_nil, List.append_nil]

theorem prolongs_of_alphanum {word : List Char} {c : Char} (opened : word ≠ [])
    (run : c.isAlphanum) : prolongs word c := by
  cases word with
  | nil => exact absurd rfl opened
  | cons d rest => simpa [prolongs, Char.isAlphanum] using run

theorem not_prolongs_of_not_alphanum {word : List Char} {c : Char}
    (other : c.isAlphanum = false) : prolongs word c = false := by
  simp only [Char.isAlphanum, Bool.or_eq_false_iff] at other
  simp [prolongs, other]

theorem isAlphanum_of_prolongs {word : List Char} {c : Char} (longer : prolongs word c) :
    c.isAlphanum := by
  by_contra other
  rw [Bool.not_eq_true] at other
  simp [not_prolongs_of_not_alphanum other] at longer

/-- An open word takes all the letters and digits that follow it. -/
theorem scanAfter_run {word run rest : List Char} (opened : word ≠ [])
    (alphanumeric : ∀ c ∈ run, c.isAlphanum)
    (stops : ∀ c, rest.head? = some c → c.isAlphanum = false) :
    scanAfter word (run ++ rest) = ofWord (word ++ run) ++ scanAfter [] rest := by
  induction run generalizing word with
  | nil =>
    cases rest with
    | nil => simp [scanAfter]
    | cons c rest =>
      have other := stops c rfl
      simp [scanAfter, not_prolongs_of_not_alphanum other]
  | cons c run ih =>
    have longer := prolongs_of_alphanum opened (alphanumeric c (by simp))
    have opened : word ++ [c] ≠ [] := by simp
    have read := ih opened fun d member => alphanumeric d (by simp [member])
    simp only [List.cons_append, scanAfter, if_pos longer, read, List.append_assoc,
      List.nil_append]

/-- Letters that meet at a seam stay apart unless one of the words spells a gate. -/
theorem ofWord_append {left right : List Char} (plainLeft : Gate.ofLetters? left = none)
    (plainRight : Gate.ofLetters? right = none) (plain : Gate.ofLetters? (left ++ right) = none)
    (letter : ∀ c, right.head? = some c → c.isDigit = false) :
    ofWord (left ++ right) = ofWord left ++ ofWord right := by
  have split : splitNames (left ++ right) = splitNames left ++ splitNames right := by
    apply List.splitBy_append
    intro _ _ c first
    exact letter c first
  simp only [ofWord, plainLeft, plainRight, plain, split, List.map_append]

theorem scanAfter_word {run rest : List Char} {c : Char} (letter : c.isAlpha)
    (alphanumeric : ∀ c ∈ run, c.isAlphanum)
    (stops : ∀ c, rest.head? = some c → c.isAlphanum = false) :
    scanAfter [] (c :: run ++ rest) = ofWord (c :: run) ++ scanAfter [] rest := by
  have first : prolongs [] c := by simp [prolongs, letter]
  simp only [List.cons_append, scanAfter, if_pos first, List.nil_append]
  exact scanAfter_run (by simp) alphanumeric stops

theorem scanAfter_append_of_letter {left run rest : List Char} {c : Char} (letter : c.isAlpha)
    (alphanumeric : ∀ c ∈ run, c.isAlphanum)
    (stops : ∀ c, rest.head? = some c → c.isAlphanum = false)
    (plainLeft : Gate.ofLetters? (openWord [] left) = none)
    (plainRight : Gate.ofLetters? (c :: run) = none)
    (plain : Gate.ofLetters? (openWord [] left ++ c :: run) = none) :
    scanAfter [] (left ++ c :: run ++ rest) =
      scanAfter [] left ++ scanAfter [] (c :: run ++ rest) := by
  by_cases closed : openWord [] left = []
  · rw [List.append_assoc]
    exact scanAfter_append_of_closed _ closed
  · have all : ∀ d ∈ c :: run, d.isAlphanum := by
      intro d member
      rcases List.mem_cons.mp member with rfl | member
      · simp [Char.isAlphanum, letter]
      · exact alphanumeric d member
    have apart := ofWord_append plainLeft plainRight plain (by
      rintro d head
      obtain rfl : c = d := by simpa using head
      exact not_digit_of_letter letter)
    rw [List.append_assoc, scanAfter_append, scanAfter_run closed all stops, apart,
      scanAfter_word letter alphanumeric stops, scanAfter_eq [] left]
    simp only [List.append_assoc]

/-- The product sign that the tokens of two texts get between them. -/
def seam (left right : List Token) : List Token :=
  if left.getLast?.any endsOperand && right.head?.any startsOperand then [product] else []

@[simp] theorem seam_nil_left (right : List Token) : seam [] right = [] := rfl

@[simp] theorem seam_nil_right (left : List Token) : seam left [] = [] := by
  simp [seam]

theorem seam_of_not_start {left : List Token} {t : Token} {right : List Token}
    (other : t.startsOperand = false) : seam left (t :: right) = [] := by
  simp [seam, other]

theorem seam_of_not_end {t : Token} {right : List Token} (other : t.endsOperand = false) :
    seam [t] right = [] := by
  simp [seam, other]

theorem insertProducts_append (left right : List Token) :
    insertProducts (left ++ right) =
      insertProducts left ++ seam left right ++ insertProducts right := by
  induction left with
  | nil => rfl
  | cons a rest ih =>
    cases rest with
    | nil =>
      cases right with
      | nil => simp [insertProducts]
      | cons b right =>
        by_cases between : a.endsOperand && b.startsOperand <;>
          simp [insertProducts, seam, between]
    | cons b rest =>
      have same : seam (a :: b :: rest) right = seam (b :: rest) right := by
        simp [seam, List.getLast?_cons_cons]
      rw [same]
      by_cases between : a.endsOperand && b.startsOperand
      · simp only [List.cons_append, insertProducts, if_pos between] at ih ⊢
        rw [ih]
      · simp only [List.cons_append, insertProducts, if_neg between] at ih ⊢
        rw [ih]

@[simp] theorem head?_insertProducts (tokens : List Token) :
    (insertProducts tokens).head? = tokens.head? := by
  cases tokens with
  | nil => rfl
  | cons a rest =>
    cases rest with
    | nil => rfl
    | cons b rest => by_cases h : a.endsOperand && b.startsOperand <;> simp [insertProducts, h]

theorem insertProducts_ne_nil (a : Token) (rest : List Token) :
    insertProducts (a :: rest) ≠ [] := by
  intro empty
  simpa [empty] using head?_insertProducts (a :: rest)

@[simp] theorem getLast?_insertProducts (tokens : List Token) :
    (insertProducts tokens).getLast? = tokens.getLast? := by
  induction tokens with
  | nil => rfl
  | cons a rest ih =>
    cases rest with
    | nil => rfl
    | cons b rest =>
      obtain ⟨c, tail, shape⟩ := List.exists_cons_of_ne_nil (insertProducts_ne_nil b rest)
      rw [List.getLast?_cons_cons, ← ih]
      by_cases h : a.endsOperand && b.startsOperand <;> simp [insertProducts, h, shape]

def ofChars (text : List Char) : List Token := insertProducts (scanAfter [] text)

theorem ofText_ofList (text : List Char) : ofText (String.ofList text) = ofChars text := by
  rw [ofText, String.toList_ofList, ofChars]

theorem ofChars_append {left right : List Char}
    (apart : scanAfter [] (left ++ right) = scanAfter [] left ++ scanAfter [] right) :
    ofChars (left ++ right) = ofChars left ++ seam (ofChars left) (ofChars right) ++ ofChars right := by
  simp only [ofChars, apart, insertProducts_append, seam, getLast?_insertProducts,
    head?_insertProducts]

/-- A character outside words stands between the texts beside it. -/
theorem ofChars_append_cons (left right : List Char) {c : Char} {t : Token}
    (other : c.isAlphanum = false) (token : ofChar? c = some t) :
    ofChars (left ++ c :: right) =
      ofChars left ++ seam (ofChars left) [t] ++ t :: (seam [t] (ofChars right) ++ ofChars right) := by
  have scanned := scanAfter_append_cons left right (not_prolongs_of_not_alphanum other)
  rw [token, Option.toList_some] at scanned
  rw [ofChars, scanned, insertProducts_append, insertProducts_append]
  simp [insertProducts, ofChars, seam]

/-- A character without meaning leaves nothing between the texts beside it. -/
theorem ofChars_append_blank (left right : List Char) {c : Char} (other : c.isAlphanum = false)
    (blank : ofChar? c = none) :
    ofChars (left ++ c :: right) =
      ofChars left ++ seam (ofChars left) (ofChars right) ++ ofChars right := by
  have scanned := scanAfter_append_cons left right (not_prolongs_of_not_alphanum other)
  rw [blank, Option.toList_none, List.append_nil] at scanned
  rw [ofChars, scanned, insertProducts_append]
  simp [ofChars, seam]

theorem openWord_plain {text : List Char} {t : Token} (last : (scanAfter [] text).getLast? = some t)
    (ends : t.endsOperand) : Gate.ofLetters? (openWord [] text) = none := by
  cases spelled : Gate.ofLetters? (openWord [] text) with
  | none => rfl
  | some g =>
    rw [scanAfter_eq, ofWord, spelled, List.getLast?_concat] at last
    obtain rfl := Option.some.inj last
    contradiction

theorem word_plain {run rest : List Char} {c : Char} {t : Token} (letter : c.isAlpha)
    (alphanumeric : ∀ c ∈ run, c.isAlphanum)
    (stops : ∀ c, rest.head? = some c → c.isAlphanum = false)
    (first : (scanAfter [] (c :: run ++ rest)).head? = some t) (starts : t.startsOperand) :
    Gate.ofLetters? (c :: run) = none := by
  cases spelled : Gate.ofLetters? (c :: run) with
  | none => rfl
  | some g =>
    rw [scanAfter_word letter alphanumeric stops, ofWord, spelled] at first
    obtain rfl := Option.some.inj first
    contradiction

/-- A text that begins with a run of letters and digits, divided where the run ends. -/
theorem run_of_takeWhile {text run : List Char} {c : Char}
    (opening : text.takeWhile Char.isAlphanum = c :: run) :
    (∀ d ∈ c :: run, d.isAlphanum) ∧
      (∀ d, (text.dropWhile Char.isAlphanum).head? = some d → d.isAlphanum = false) ∧
      c :: run ++ text.dropWhile Char.isAlphanum = text := by
  rw [← opening]
  refine ⟨fun d member => List.mem_takeWhile_imp member, ?_, List.takeWhile_append_dropWhile⟩
  intro d head
  have := List.head?_dropWhile_not Char.isAlphanum text
  simpa [head] using this

/-- A star is written wherever the words that meet would be a gate or a longer name. -/
theorem needsStar_eq {left right : List Char} {c : Char} {run : List Char}
    (closing : openWord [] left ≠ []) (opening : right.takeWhile Char.isAlphanum = c :: run) :
    Printer.needsStar left right =
      (c.isDigit || (Gate.ofLetters? (openWord [] left ++ c :: run)).isSome) := by
  rw [openWord_nil_eq] at closing ⊢
  cases tail : tailRun left with
  | nil => simp [tail] at closing
  | cons d rest =>
    have shown : (left.reverse.takeWhile Char.isAlphanum).reverse = d :: rest := tail
    simp only [Printer.needsStar, shown, opening]

/-- Without a star two operands still scan as they do apart. -/
theorem scanAfter_append_of_bare {left right : List Char} {a b : Token}
    (last : (scanAfter [] left).getLast? = some a) (ends : a.endsOperand)
    (first : (scanAfter [] right).head? = some b) (starts : b.startsOperand)
    (bare : Printer.needsStar left right = false) :
    scanAfter [] (left ++ right) = scanAfter [] left ++ scanAfter [] right := by
  cases opening : right.takeWhile Char.isAlphanum with
  | nil =>
    apply scanAfter_append_of_stop
    intro c here
    apply not_prolongs_of_not_alphanum
    obtain ⟨rest, rfl⟩ := List.head?_eq_some_iff.mp here
    by_contra run
    rw [Bool.not_eq_false] at run
    simp [run] at opening
  | cons c run =>
    by_cases closed : openWord [] left = []
    · exact scanAfter_append_of_closed right closed
    · rw [needsStar_eq closed opening, Bool.or_eq_false_iff, Option.isSome_eq_false_iff,
        Option.isNone_iff_eq_none] at bare
      obtain ⟨alphanumeric, stops, divided⟩ := run_of_takeWhile opening
      rw [List.forall_mem_cons] at alphanumeric
      have letter : c.isAlpha := by
        simpa [Char.isAlphanum, bare.1] using alphanumeric.1
      rw [← divided] at first ⊢
      have plain := word_plain letter alphanumeric.2 stops first starts
      rw [← List.append_assoc]
      exact scanAfter_append_of_letter letter alphanumeric.2 stops (openWord_plain last ends) plain
        bare.2

/-- Juxtaposed operands read as a product of what they read as apart. -/
theorem ofChars_joinFactors {left right : List Char} {a b : Token}
    (last : (ofChars left).getLast? = some a) (ends : a.endsOperand)
    (first : (ofChars right).head? = some b) (starts : b.startsOperand) :
    ofChars (Printer.joinFactors left right) = ofChars left ++ product :: ofChars right := by
  by_cases star : Printer.needsStar left right
  · rw [Printer.joinFactors, if_pos star,
      ofChars_append_cons left right (c := '*') (t := product) (by decide) rfl,
      seam_of_not_start (by decide), seam_of_not_end (by decide)]
    simp
  · rw [Bool.not_eq_true] at star
    have apart := scanAfter_append_of_bare (by simpa [ofChars] using last) ends
      (by simpa [ofChars] using first) starts star
    have between : seam (ofChars left) (ofChars right) = [product] := by
      simp [seam, last, first, ends, starts]
    rw [Printer.joinFactors, star, if_neg Bool.false_ne_true, ofChars_append apart, between]
    simp

end Switching.Token
