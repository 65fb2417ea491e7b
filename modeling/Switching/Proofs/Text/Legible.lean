import Switching.Expr.Basic
import Switching.Proofs.Text.Seams

/-! Names that text can spell. Each is read back as itself, and text spells no
others. -/
namespace Switching.Token

/-- A letter with the digits after it, or a constant. -/
def isLegible (name : String) : Bool :=
  match name.toList with
  | [] => false
  | c :: digits => if c.isAlpha then digits.all Char.isDigit else c ∈ ['0', '1'] && digits.isEmpty

theorem letters_of_ofLetters? {word : List Char} {g : Gate} (spelled : Gate.ofLetters? word = some g) :
    g.letters = word.map Char.toUpper := by
  simpa using List.find?_some spelled

theorem toUpper_of_digit {c : Char} (digit : c.isDigit) : c.toUpper = c := by
  have notLower : ¬ (c.val ≥ 'a'.val ∧ c.val ≤ 'z'.val) := by
    simp only [Char.isDigit, Bool.and_eq_true, decide_eq_true_eq, ge_iff_le,
      UInt32.le_iff_toNat_le] at digit ⊢
    have : 'a'.val.toNat = 97 := rfl
    have : '9'.val.toNat = 57 := rfl
    omega
  exact dif_neg notLower

theorem isAlpha_of_toUpper {c : Char} (upper : c.toUpper.isAlpha) : c.isAlpha := by
  by_cases lower : c.val ≥ 'a'.val ∧ c.val ≤ 'z'.val
  · have small : c.isLower :=
      Bool.and_eq_true_iff.mpr ⟨decide_eq_true lower.1, decide_eq_true lower.2⟩
    exact Bool.or_eq_true_iff.mpr (.inr small)
  · have same : c.toUpper = c := dif_neg lower
    rwa [same] at upper

/-- A gate is spelled with letters alone. -/
theorem isAlpha_of_ofLetters? {word : List Char} {g : Gate}
    (spelled : Gate.ofLetters? word = some g) : ∀ c ∈ word, c.isAlpha := by
  intro c listed
  apply isAlpha_of_toUpper
  have alphabetic : g.letters.all Char.isAlpha := by cases g <;> decide
  apply List.all_eq_true.mp alphabetic
  rw [letters_of_ofLetters? spelled]
  exact List.mem_map_of_mem listed

theorem ofText_of_ofName? {word : String} {g : Gate} (spelled : Gate.ofName? word = some g) :
    ofText word = [.operator (.word g)] := by
  have letters : Gate.ofLetters? word.toList = some g := spelled
  have alphabetic := isAlpha_of_ofLetters? letters
  rw [ofText]
  cases shape : word.toList with
  | nil =>
    rw [shape] at letters
    cases letters
  | cons c run =>
    rw [shape] at letters alphabetic
    have first := alphabetic c List.mem_cons_self
    have rest : ∀ d ∈ run, d.isAlphanum := by
      intro d listed
      simp [Char.isAlphanum, alphabetic d (List.mem_cons_of_mem _ listed)]
    have scanned : scanAfter [] (c :: run ++ []) = ofWord (c :: run) ++ scanAfter [] [] :=
      scanAfter_word first rest (by simp)
    rw [List.append_nil, ofWord, letters] at scanned
    rw [scanned]
    rfl

/-- No gate is spelled with one letter, or with a digit behind the first. -/
theorem ofLetters?_name (c : Char) {digits : List Char} (all : digits.all Char.isDigit) :
    Gate.ofLetters? (c :: digits) = none := by
  cases spelled : Gate.ofLetters? (c :: digits) with
  | none => rfl
  | some g =>
    have letters := letters_of_ofLetters? spelled
    cases digits with
    | nil => cases g <;> simp [Gate.letters] at letters
    | cons d rest =>
      have digit : d.isDigit := by
        simp only [List.all_cons, Bool.and_eq_true] at all
        exact all.1
      have second : g.letters[1]? = some d := by
        rw [letters]
        simp [toUpper_of_digit digit]
      cases g <;> simp only [Gate.letters, List.getElem?_cons_succ, List.getElem?_cons_zero,
        Option.some.injEq] at second <;> subst d <;> contradiction

theorem splitNames_cons {c : Char} {digits rest : List Char} (all : digits.all Char.isDigit)
    (stops : ∀ d, rest.head? = some d → d.isDigit = false) :
    splitNames (c :: digits ++ rest) = (c :: digits) :: splitNames rest := by
  have single : splitNames (c :: digits) = [c :: digits] := by
    apply List.splitBy_of_isChain (by simp)
    clear stops
    induction digits generalizing c with
    | nil => exact .singleton c
    | cons d digits ih =>
      simp only [List.all_cons, Bool.and_eq_true] at all
      exact .cons_cons all.1 (ih all.2)
  have split : splitNames (c :: digits ++ rest) = splitNames (c :: digits) ++ splitNames rest := by
    apply List.splitBy_append
    intro _ _ d first
    exact stops d first
  rw [split, single]
  rfl

theorem ofChars_name {name : String} (legible : isLegible name) : ofChars name.toList = [.var name] := by
  have same : String.ofList name.toList = name := String.ofList_toList
  cases shape : name.toList with
  | nil => simp [isLegible, shape] at legible
  | cons c digits =>
    simp only [isLegible, shape] at legible
    rw [shape] at same
    by_cases letter : c.isAlpha
    · rw [if_pos letter] at legible
      have alphanumeric : ∀ d ∈ digits, d.isAlphanum := by
        intro d member
        simp [Char.isAlphanum, List.all_eq_true.mp legible d member]
      have scanned : scanAfter [] (c :: digits ++ []) = ofWord (c :: digits) ++ scanAfter [] [] :=
        scanAfter_word letter alphanumeric (by simp)
      have split : splitNames (c :: digits ++ []) = (c :: digits) :: splitNames [] :=
        splitNames_cons legible (by simp)
      simp only [List.append_nil] at scanned split
      rw [ofChars, scanned, ofWord, ofLetters?_name c legible, split]
      simp [splitNames, scanAfter, insertProducts, same]
    · simp only [if_neg letter, List.mem_cons, List.not_mem_nil, or_false, Bool.and_eq_true,
        decide_eq_true_eq, List.isEmpty_iff] at legible
      obtain ⟨rfl | rfl, rfl⟩ := legible
      · rw [← same]
        rfl
      · rw [← same]
        rfl

theorem shape_of_mem_splitNames {word : List Char} (alphanumeric : ∀ c ∈ word, c.isAlphanum)
    (letter : ∀ c, word.head? = some c → c.isAlpha) {name : List Char}
    (member : name ∈ splitNames word) :
    ∃ c digits, name = c :: digits ∧ c.isAlpha ∧ digits.all Char.isDigit := by
  match word, alphanumeric, letter, member with
  | [], _, _, member => simp [splitNames] at member
  | c :: rest, alphanumeric, letter, member =>
    have digits : (rest.takeWhile Char.isDigit).all Char.isDigit := List.all_takeWhile
    have stops : ∀ d, (rest.dropWhile Char.isDigit).head? = some d → d.isDigit = false := by
      intro d head
      have := List.head?_dropWhile_not Char.isDigit rest
      simpa [head] using this
    have split := splitNames_cons (c := c) digits stops
    rw [List.cons_append, List.takeWhile_append_dropWhile] at split
    rw [split] at member
    rcases List.mem_cons.mp member with rfl | member
    · exact ⟨c, _, rfl, letter c rfl, digits⟩
    · have inside : ∀ d ∈ rest.dropWhile Char.isDigit, d.isAlphanum := fun d found =>
        alphanumeric d (List.mem_cons_of_mem _ ((List.dropWhile_sublist _).subset found))
      refine shape_of_mem_splitNames inside ?_ member
      intro d head
      have run := inside d (List.mem_of_head? head)
      simpa [Char.isAlphanum, stops d head] using run
termination_by word.length
decreasing_by
  exact Nat.lt_succ_of_le (List.dropWhile_sublist _).length_le

theorem legible_of_mem_splitNames {word : List Char} (alphanumeric : ∀ c ∈ word, c.isAlphanum)
    (letter : ∀ c, word.head? = some c → c.isAlpha) {name : List Char}
    (member : name ∈ splitNames word) : isLegible (String.ofList name) := by
  obtain ⟨c, digits, rfl, first, all⟩ := shape_of_mem_splitNames alphanumeric letter member
  simp [isLegible, first, all]

/-- The word that is open while a text is scanned. -/
def IsWord (word : List Char) : Prop :=
  (∀ c ∈ word, c.isAlphanum) ∧ ∀ c, word.head? = some c → c.isAlpha

theorem IsWord.concat {word : List Char} {c : Char} (opened : IsWord word)
    (longer : prolongs word c) : IsWord (word ++ [c]) := by
  have run : c.isAlphanum := isAlphanum_of_prolongs longer
  constructor
  · intro d member
    rcases List.mem_append.mp member with found | last
    · exact opened.1 d found
    · rwa [List.mem_singleton.mp last]
  · cases word with
    | nil =>
      intro d head
      obtain rfl : c = d := by simpa using head
      simpa [prolongs] using longer
    | cons d rest => simpa using opened.2

theorem IsWord.append {word run : List Char} (opened : IsWord word) (started : word ≠ [])
    (alphanumeric : ∀ c ∈ run, c.isAlphanum) : IsWord (word ++ run) := by
  constructor
  · exact List.forall_mem_append.mpr ⟨opened.1, alphanumeric⟩
  · intro c first
    rw [List.head?_append_of_ne_nil _ started] at first
    exact opened.2 c first

theorem isWord_openWord {word : List Char} (opened : IsWord word) (text : List Char) :
    IsWord (openWord word text) := by
  induction text generalizing word with
  | nil => exact opened
  | cons c rest ih =>
    rw [openWord]
    split
    · rename_i longer
      exact ih (opened.concat longer)
    · exact ih ⟨by simp, by simp⟩

theorem legible_of_mem_ofWord {word : List Char} (opened : IsWord word) {name : String}
    (member : .var name ∈ ofWord word) : isLegible name := by
  cases spelled : Gate.ofLetters? word with
  | some g => simp [ofWord, spelled] at member
  | none =>
    simp only [ofWord, spelled, List.mem_map, Token.var.injEq] at member
    obtain ⟨letters, listed, rfl⟩ := member
    exact legible_of_mem_splitNames opened.1 opened.2 listed

theorem legible_of_ofChar? {c : Char} {name : String} (token : ofChar? c = some (.var name)) :
    isLegible name := by
  unfold ofChar? at token
  split at token
  · cases token
  · cases token
  · cases token
  · cases token; decide
  · cases token; decide
  · simp at token

theorem legible_of_mem_scanAfter {word text : List Char} (opened : IsWord word) {name : String}
    (member : .var name ∈ scanAfter word text) : isLegible name := by
  induction text generalizing word with
  | nil => exact legible_of_mem_ofWord opened member
  | cons c rest ih =>
    by_cases longer : prolongs word c
    · rw [scanAfter, if_pos longer] at member
      exact ih (opened.concat longer) member
    · rw [scanAfter, if_neg longer, List.mem_append, List.mem_append, Option.mem_toList] at member
      rcases member with (inWord | token) | later
      · exact legible_of_mem_ofWord opened inWord
      · exact legible_of_ofChar? token
      · exact ih ⟨by simp, by simp⟩ later

theorem mem_insertProducts {t : Token} {tokens : List Token} (member : t ∈ insertProducts tokens) :
    t = product ∨ t ∈ tokens := by
  induction tokens with
  | nil => exact .inr member
  | cons a rest ih =>
    cases rest with
    | nil => exact .inr member
    | cons b rest =>
      have step : t = a ∨ t = product ∨ t ∈ insertProducts (b :: rest) := by
        by_cases between : a.endsOperand && b.startsOperand
        · simpa [insertProducts, between] using member
        · simp only [insertProducts, if_neg between, List.mem_cons] at member
          exact member.imp_right .inr
      rcases step with rfl | sign | later
      · exact .inr (by simp)
      · exact .inl sign
      · rcases ih later with sign | found
        · exact .inl sign
        · exact .inr (List.mem_cons_of_mem _ found)

/-- Whatever the text, its names can be spelled. -/
theorem legible_of_mem_ofText {text name : String} (member : .var name ∈ ofText text) :
    isLegible name := by
  rcases mem_insertProducts member with sign | scanned
  · cases sign
  · exact legible_of_mem_scanAfter ⟨by simp, by simp⟩ scanned

end Switching.Token

namespace Switching.Expr

def Legible (e : Expr) : Prop := ∀ name ∈ e.leaves, Token.isLegible name

instance (e : Expr) : Decidable (Legible e) := inferInstanceAs (Decidable (∀ name ∈ _, _))

end Switching.Expr
