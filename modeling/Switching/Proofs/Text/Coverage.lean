import Switching.Proofs.Parser.Conservation
import Switching.Proofs.Text.Legible

/-! What the tokens of a text account for. Letters and digits go into names and gate words or are
dropped, so a text whose names hold all its letters and digits has no gate word, and its tokens
spell it out. And a text and its names tell all its tokens. -/
namespace Switching.Token

/-- The letters and digits of the names. -/
def letters (ts : List Token) : List Char := (ts.filterMap name?).flatMap String.toList

def spelling (ts : List Token) : List Char := ts.flatMap fun t => t.text.toList

/-- Every letter and digit belongs to a name. -/
def Covered (text : List Char) : Prop :=
  letters (scanAfter [] text) = text.filter Char.isAlphanum

section

variable {word text left right : List Char} {ts us : List Token} {t : Token} {c : Char}

@[simp] theorem letters_append (ts us : List Token) :
    letters (ts ++ us) = letters ts ++ letters us := by
  simp [letters]

@[simp] theorem spelling_append (ts us : List Token) :
    spelling (ts ++ us) = spelling ts ++ spelling us := List.flatMap_append

@[simp] theorem letters_nil : letters [] = [] := rfl

@[simp] theorem spelling_cons (t : Token) (ts : List Token) :
    spelling (t :: ts) = t.text.toList ++ spelling ts := rfl

theorem filterMap_insertProducts {β : Type} {f : Token → Option β} (blank : f product = none)
    (ts : List Token) : (insertProducts ts).filterMap f = ts.filterMap f := by
  fun_induction insertProducts ts with
  | case1 a b rest between ih =>
    rw [List.filterMap_cons, List.filterMap_cons_none blank, ih, ← List.filterMap_cons]
  | case2 a b rest other ih => rw [List.filterMap_cons, ih, ← List.filterMap_cons]
  | case3 ts short => rfl

theorem names_insertProducts (ts : List Token) :
    (insertProducts ts).filterMap name? = ts.filterMap name? := filterMap_insertProducts rfl ts

theorem append_eq_of_sublist {α : Type} {as as' bs bs' : List α} (first : as.Sublist as')
    (second : bs.Sublist bs') (same : as ++ bs = as' ++ bs') : as = as' ∧ bs = bs' := by
  have lengths := congrArg List.length same
  rw [List.length_append, List.length_append] at lengths
  have short := first.length_le
  have shorter := second.length_le
  exact ⟨first.eq_of_length (by omega), second.eq_of_length (by omega)⟩

theorem letters_ofWord (word : List Char) :
    letters (ofWord word) = if (Gate.ofLetters? word).isSome then [] else word := by
  cases spelled : Gate.ofLetters? word with
  | some g => simp [ofWord, spelled, letters, name?]
  | none =>
    have names : ((splitNames word).map fun name => var (String.ofList name)).filterMap name? =
        (splitNames word).map String.ofList := by
      rw [List.filterMap_map]
      exact congrFun List.filterMap_eq_map _
    simp only [ofWord, spelled, letters, names, List.flatMap_map, String.toList_ofList]
    exact List.flatMap_id.trans (List.flatten_splitBy _ _)

theorem spelling_ofWord {word : List Char} (plain : Gate.ofLetters? word = none) :
    spelling (ofWord word) = word := by
  simp only [ofWord, plain, spelling, List.flatMap_map, text, String.toList_ofList]
  exact List.flatMap_id.trans (List.flatten_splitBy _ _)

theorem sublist_letters_ofWord (word : List Char) : (letters (ofWord word)).Sublist word := by
  rw [letters_ofWord]
  split
  · exact List.nil_sublist _
  · exact List.Sublist.refl _

/-- A character that has a token is its text, and no gate word. It is a name or no letter or
digit. -/
theorem ofChar?_cases {c : Char} {t : Token} (token : ofChar? c = some t) :
    t.text.toList = [c] ∧ (∀ g, t ≠ .operator (.word g)) ∧
      ((c.isAlphanum = true ∧ t.name? = some c.toString) ∨
        (c.isAlphanum = false ∧ t.name? = none)) := by
  unfold ofChar? at token
  split at token
  case h_6 =>
    unfold Operator.ofChar? at token
    split at token
    case h_10 => cases token
    all_goals
      cases token
      exact ⟨by decide, by simp, .inr ⟨by decide, rfl⟩⟩
  case h_4 | h_5 =>
    cases token
    exact ⟨by decide, by simp, .inl ⟨by decide, rfl⟩⟩
  all_goals
    cases token
    exact ⟨by decide, by simp, .inr ⟨by decide, rfl⟩⟩

theorem sublist_letters_ofChar? (c : Char) :
    (letters (ofChar? c).toList).Sublist ([c].filter Char.isAlphanum) := by
  cases token : ofChar? c with
  | none => exact List.nil_sublist _
  | some t =>
    obtain ⟨-, -, ⟨run, named⟩ | ⟨-, named⟩⟩ := ofChar?_cases token
    · simp [letters, named, run]
    · simp [letters, named]

theorem filter_isAlphanum_cons (c : Char) (rest : List Char) :
    (c :: rest).filter Char.isAlphanum =
      [c].filter Char.isAlphanum ++ rest.filter Char.isAlphanum :=
  List.filter_append [c] rest

/-- Names hold letters and digits of the text, each once and in their order. -/
theorem sublist_letters_scanAfter (word text : List Char) :
    (letters (scanAfter word text)).Sublist (word ++ text.filter Char.isAlphanum) := by
  induction text generalizing word with
  | nil =>
    rw [List.filter_nil, List.append_nil]
    exact sublist_letters_ofWord word
  | cons c rest ih =>
    by_cases longer : prolongs word c
    · rw [scanAfter, if_pos longer, List.filter_cons_of_pos (isAlphanum_of_prolongs longer)]
      simpa using ih (word ++ [c])
    · rw [scanAfter, if_neg longer, letters_append, letters_append, List.append_assoc,
        filter_isAlphanum_cons]
      exact (sublist_letters_ofWord word).append ((sublist_letters_ofChar? c).append (ih []))

theorem ofLetters?_of_letters_ofWord (all : letters (ofWord word) = word) :
    Gate.ofLetters? word = none := by
  cases spelled : Gate.ofLetters? word with
  | none => rfl
  | some g =>
    rw [letters_ofWord, spelled, Option.isSome_some, if_pos rfl] at all
    rw [← all] at spelled
    cases spelled

theorem wordless_ofWord (plain : Gate.ofLetters? word = none) (g : Gate) :
    .operator (.word g) ∉ ofWord word := by
  simp [ofWord, plain]

/-- Where all letters and digits belong to names, and every other character has a token, no gate
word is read and the tokens spell the text. -/
theorem spelling_scanAfter (covered : letters (scanAfter word text) =
      word ++ text.filter Char.isAlphanum)
    (marks : ∀ c ∈ text, c.isAlphanum ∨ (ofChar? c).isSome) :
    spelling (scanAfter word text) = word ++ text ∧
      ∀ g, .operator (.word g) ∉ scanAfter word text := by
  induction text generalizing word with
  | nil =>
    rw [List.filter_nil, List.append_nil] at covered
    have plain := ofLetters?_of_letters_ofWord covered
    rw [List.append_nil]
    exact ⟨spelling_ofWord plain, wordless_ofWord plain⟩
  | cons c rest ih =>
    rw [List.forall_mem_cons] at marks
    by_cases longer : prolongs word c
    · rw [scanAfter, if_pos longer] at covered ⊢
      rw [List.filter_cons_of_pos (isAlphanum_of_prolongs longer)] at covered
      have further := ih (covered.trans (List.append_cons _ _ _)) marks.2
      rwa [← List.append_cons] at further
    · rw [scanAfter, if_neg longer] at covered ⊢
      rw [letters_append, letters_append, List.append_assoc, filter_isAlphanum_cons] at covered
      obtain ⟨first, covered⟩ := append_eq_of_sublist (sublist_letters_ofWord word)
        ((sublist_letters_ofChar? c).append (sublist_letters_scanAfter [] rest)) covered
      obtain ⟨own, covered⟩ := append_eq_of_sublist (sublist_letters_ofChar? c)
        (sublist_letters_scanAfter [] rest) covered
      have covered : letters (scanAfter [] rest) = [] ++ rest.filter Char.isAlphanum := covered
      obtain ⟨spelled, wordless⟩ := ih covered marks.2
      have plain := ofLetters?_of_letters_ofWord first
      cases token : ofChar? c with
      | none =>
        have run : c.isAlphanum := by simpa [token] using marks.1
        simp [token, run] at own
      | some t =>
        obtain ⟨shown, other, -⟩ := ofChar?_cases token
        constructor
        · simp [spelling_ofWord plain, shown, spelled]
        · intro g listed
          rcases List.mem_append.mp listed with listed | listed
          · rcases List.mem_append.mp listed with listed | listed
            · exact wordless_ofWord plain g listed
            · exact other g (by simpa [eq_comm] using listed)
          · exact wordless g listed

theorem Covered.parts_of_stop (stops : prolongs (openWord [] left) c = false)
    (covered : Covered (left ++ c :: right)) :
    Covered left ∧ letters (ofChar? c).toList = [c].filter Char.isAlphanum ∧ Covered right := by
  rw [Covered, scanAfter_append_cons left right stops, letters_append, letters_append,
    List.append_assoc, List.filter_append, filter_isAlphanum_cons] at covered
  have behind := (sublist_letters_ofChar? c).append (sublist_letters_scanAfter [] right)
  obtain ⟨first, covered⟩ :=
    append_eq_of_sublist (sublist_letters_scanAfter [] left) behind covered
  exact ⟨first, append_eq_of_sublist (sublist_letters_ofChar? c)
    (sublist_letters_scanAfter [] right) covered⟩

theorem Covered.parts (outside : c.isAlphanum = false) (covered : Covered (left ++ c :: right)) :
    Covered left ∧ Covered right := by
  obtain ⟨first, -, second⟩ := covered.parts_of_stop (not_prolongs_of_not_alphanum outside)
  exact ⟨first, second⟩

theorem Covered.join (first : Covered left) (outside : c.isAlphanum = false)
    (second : Covered right) : Covered (left ++ c :: right) := by
  have unnamed : letters (ofChar? c).toList = [] := by
    simpa [outside] using sublist_letters_ofChar? c
  rw [Covered, scanAfter_append_cons left right (not_prolongs_of_not_alphanum outside),
    letters_append, letters_append, unnamed, List.append_nil, List.filter_append,
    List.filter_cons_of_neg (by simp [outside])]
  exact congrArg₂ (· ++ ·) first second

/-- A token that a text shows as it is: a name that can be spelled, or a mark. -/
inductive Shown : Token → Prop
  | name {name : String} : isLegible name → Shown (.var name)
  | mark {c : Char} {t : Token} : c.isAlphanum = false → ofChar? c = some t → Shown t

theorem shown_of_wordless (legible : ∀ name, t = .var name → isLegible name)
    (wordless : ∀ g, t ≠ .operator (.word g)) : t.Shown := by
  match t with
  | .var name => exact .name (legible name rfl)
  | .leftParen => exact .mark (c := '(') (by decide) rfl
  | .rightParen => exact .mark (c := ')') (by decide) rfl
  | .comma => exact .mark (c := ',') (by decide) rfl
  | .operator .postfixNot => exact .mark (c := '\'') (by decide) rfl
  | .operator (.prefixNot m) =>
    exact .mark (c := m.char) (by cases m <;> decide) (by cases m <;> rfl)
  | .operator (.mark m) => exact .mark (c := m.char) (by cases m <;> decide) (by cases m <;> rfl)
  | .operator (.word g) => exact absurd rfl (wordless g)

theorem isAlphanum_of_isLegible {name : String} (legible : isLegible name) :
    ∀ c ∈ name.toList, c.isAlphanum := by
  cases shape : name.toList with
  | nil => exact nofun
  | cons c rest =>
    simp only [isLegible, shape] at legible
    rw [List.forall_mem_cons]
    by_cases letter : c.isAlpha
    · rw [if_pos letter] at legible
      refine ⟨by simp [Char.isAlphanum, letter], fun d listed => ?_⟩
      simp [Char.isAlphanum, List.all_eq_true.mp legible d listed]
    · simp only [if_neg letter, Bool.and_eq_true, decide_eq_true_eq, List.mem_cons,
        List.not_mem_nil, or_false, List.isEmpty_iff] at legible
      obtain ⟨rfl | rfl, rfl⟩ := legible <;> exact ⟨by decide, nofun⟩

theorem exists_toList_of_isLegible {name : String} (legible : isLegible name) :
    ∃ c rest, name.toList = c :: rest ∧ c.isAlphanum := by
  have run := isAlphanum_of_isLegible legible
  cases shape : name.toList with
  | nil => simp [isLegible, shape] at legible
  | cons c rest => exact ⟨c, rest, rfl, run c (by simp [shape])⟩

/-- What a shown token tells of itself: whether it is a name and, if not, its only character. -/
theorem Shown.cases_first (shown : t.Shown) :
    (∃ name c rest, t = .var name ∧ name.toList = c :: rest ∧ c.isAlphanum) ∨
      ∃ c, c.isAlphanum = false ∧ ofChar? c = some t ∧ t.text.toList = [c] ∧ t.name? = none := by
  cases shown with
  | @name name legible =>
    obtain ⟨c, rest, shape, run⟩ := exists_toList_of_isLegible legible
    exact .inl ⟨name, c, rest, rfl, shape, run⟩
  | @mark c t outside token =>
    obtain ⟨shown, -, ⟨run, -⟩ | ⟨-, unnamed⟩⟩ := ofChar?_cases token
    · exact absurd (run.symm.trans outside) (by decide)
    · exact .inr ⟨c, outside, token, shown, unnamed⟩

theorem Shown.text_ne_nil (shown : t.Shown) : t.text.toList ≠ [] := by
  obtain ⟨name, c, rest, rfl, shape, -⟩ | ⟨c, -, -, shape, -⟩ := shown.cases_first
  · exact fun empty => by simp [text, shape] at empty
  · exact fun empty => by simp [shape] at empty

/-- Tokens are told apart by their names and by what they spell. -/
theorem eq_of_spelling (shown : ∀ t ∈ ts, t.Shown) (shown' : ∀ u ∈ us, u.Shown)
    (names : ts.filterMap name? = us.filterMap name?) (same : spelling ts = spelling us) :
    ts = us := by
  induction ts generalizing us with
  | nil =>
    cases us with
    | nil => rfl
    | cons u us =>
      have first := (shown' u List.mem_cons_self).text_ne_nil
      have empty : u.text.toList ++ spelling us = [] := same.symm
      exact absurd (List.append_eq_nil_iff.mp empty).1 first
  | cons t ts ih =>
    rw [List.forall_mem_cons] at shown
    cases us with
    | nil =>
      have empty : t.text.toList ++ spelling ts = [] := same
      exact absurd (List.append_eq_nil_iff.mp empty).1 shown.1.text_ne_nil
    | cons u us =>
      rw [List.forall_mem_cons] at shown'
      rw [spelling_cons, spelling_cons] at same
      obtain ⟨n, c, rest, rfl, shape, run⟩ | ⟨c, outside, token, shape, unnamed⟩ :=
        shown.1.cases_first
      all_goals
        obtain ⟨m, d, rest', rfl, shape', run'⟩ | ⟨d, outside', token', shape', unnamed'⟩ :=
          shown'.1.cases_first
      · have names : n :: ts.filterMap name? = m :: us.filterMap name? := names
        obtain ⟨rfl, later⟩ := List.cons.inj names
        rw [ih shown.2 shown'.2 later (List.append_cancel_left same)]
      · rw [show text (.var n) = n from rfl, shape, shape'] at same
        obtain ⟨rfl, -⟩ := List.cons.inj same
        exact absurd (run.symm.trans outside') (by decide)
      · rw [show text (.var m) = m from rfl, shape, shape'] at same
        obtain ⟨rfl, -⟩ := List.cons.inj same
        exact absurd (run'.symm.trans outside) (by decide)
      · rw [shape, shape'] at same
        have same : c :: spelling ts = d :: spelling us := same
        obtain ⟨rfl, later⟩ := List.cons.inj same
        obtain rfl := Option.some.inj (token.symm.trans token')
        rw [List.filterMap_cons_none unnamed, List.filterMap_cons_none unnamed] at names
        rw [ih shown.2 shown'.2 names later]

end

end Switching.Token
