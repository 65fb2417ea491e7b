import Mathlib.Data.List.Chain
import Mathlib.Data.Set.List
import Switching.Proofs.Text.Bracketing

/-! Which lists of tokens come out of text, and a text for each of them. Tokens are judged here
among lexemes, where any character may be a mark and any gate may stand beside it, so that what
scanning never yields can be said as well. -/
namespace Switching

/-- A token taken apart into what is written and what it means. -/
inductive Lexeme where
  | var (name : String)
  | postfixNot
  | prefixNot (c : Char)
  | symbol (c : Char) (g : Gate)
  | word (g : Gate)
  | leftParen
  | rightParen
  | comma
deriving DecidableEq, Repr

namespace Lexeme

def text : Lexeme → String
  | .var name => name
  | .postfixNot => "'"
  | .prefixNot c | .symbol c _ => c.toString
  | .word g => g.name
  | .leftParen => "("
  | .rightParen => ")"
  | .comma => ","

def endsOperand : Lexeme → Bool
  | .var _ | .rightParen | .postfixNot => true
  | _ => false

def startsOperand : Lexeme → Bool
  | .var _ | .leftParen => true
  | _ => false

/-- Names that can be spelled, and the operators of the language with their gates. -/
def isKnown : Lexeme → Bool
  | .var name => Token.isLegible name
  | .prefixNot c => c ∈ ['!', '~']
  | .symbol c g =>
    (c, g) ∈ [('*', Gate.and), ('&', .and), ('+', .or), ('|', .or), ('^', .xor), ('⊙', .xnor)]
  | _ => true

/-- Between two operands there has to be an operator. -/
def Apart (a b : Lexeme) : Prop := ¬ (a.endsOperand ∧ b.startsOperand)

structure Scannable (ts : List Lexeme) : Prop where
  known : ∀ t ∈ ts, t.isKnown
  apart : ts.IsChain Apart

end Lexeme

namespace Token

open Lexeme

def lexeme : Token → Lexeme
  | .var name => .var name
  | .operator .postfixNot => .postfixNot
  | .operator (.prefixNot m) => .prefixNot m.char
  | .operator (.mark m) => .symbol m.char m.gate
  | .operator (.word g) => .word g
  | .leftParen => .leftParen
  | .rightParen => .rightParen
  | .comma => .comma

/-- A case for each way in which a lexeme is read off a token. -/
theorem lexeme_cases {motive : Token → Prop} (var : ∀ name, motive (.var name))
    (postfixNot : motive (.operator .postfixNot))
    (prefixNot : ∀ m, motive (.operator (.prefixNot m)))
    (mark : ∀ m, motive (.operator (.mark m))) (word : ∀ g, motive (.operator (.word g)))
    (leftParen : motive .leftParen) (rightParen : motive .rightParen) (comma : motive .comma) :
    ∀ t, motive t
  | .var name => var name
  | .operator .postfixNot => postfixNot
  | .operator (.prefixNot m) => prefixNot m
  | .operator (.mark m) => mark m
  | .operator (.word g) => word g
  | .leftParen => leftParen
  | .rightParen => rightParen
  | .comma => comma

@[simp] theorem text_lexeme (t : Token) : t.lexeme.text = t.text := by
  cases t using lexeme_cases <;> rfl

@[simp] theorem endsOperand_lexeme (t : Token) : t.lexeme.endsOperand = t.endsOperand := by
  cases t using lexeme_cases <;> rfl

@[simp] theorem startsOperand_lexeme (t : Token) : t.lexeme.startsOperand = t.startsOperand := by
  cases t using lexeme_cases <;> rfl

theorem isKnown_lexeme {t : Token} (legible : ∀ name, t = .var name → isLegible name) :
    t.lexeme.isKnown := by
  cases t using lexeme_cases with
  | var name => exact legible name rfl
  | prefixNot m => cases m <;> rfl
  | mark m => cases m <;> rfl
  | postfixNot | word | leftParen | rightParen | comma => rfl

theorem exists_of_isKnown {l : Lexeme} (known : l.isKnown) : ∃ t : Token, t.lexeme = l := by
  cases l with
  | var name => exact ⟨.var name, rfl⟩
  | postfixNot => exact ⟨.operator .postfixNot, rfl⟩
  | prefixNot c =>
    simp only [isKnown, List.mem_cons, List.not_mem_nil, or_false, decide_eq_true_eq] at known
    rcases known with rfl | rfl
    · exact ⟨.operator (.prefixNot .bang), rfl⟩
    · exact ⟨.operator (.prefixNot .tilde), rfl⟩
  | symbol c g =>
    simp only [isKnown, List.mem_cons, List.not_mem_nil, or_false, Prod.mk.injEq,
      decide_eq_true_eq] at known
    rcases known with ⟨rfl, rfl⟩ | ⟨rfl, rfl⟩ | ⟨rfl, rfl⟩ | ⟨rfl, rfl⟩ | ⟨rfl, rfl⟩ | ⟨rfl, rfl⟩
    · exact ⟨.operator (.mark .star), rfl⟩
    · exact ⟨.operator (.mark .ampersand), rfl⟩
    · exact ⟨.operator (.mark .plus), rfl⟩
    · exact ⟨.operator (.mark .bar), rfl⟩
    · exact ⟨.operator (.mark .caret), rfl⟩
    · exact ⟨.operator (.mark .circledDot), rfl⟩
  | word g => exact ⟨.operator (.word g), rfl⟩
  | leftParen => exact ⟨.leftParen, rfl⟩
  | rightParen => exact ⟨.rightParen, rfl⟩
  | comma => exact ⟨.comma, rfl⟩

theorem exists_map_lexeme {ts : List Lexeme} (known : ∀ t ∈ ts, t.isKnown) :
    ∃ tokens : List Token, tokens.map lexeme = ts := by
  have inside : ts ∈ Set.range (List.map lexeme) := by
    rw [Set.range_list_map]
    exact fun t listed => exists_of_isKnown (known t listed)
  exact inside

/-- The sign of a product neither ends an operand nor starts one, so none is put in twice. -/
theorem isChain_insertProducts (tokens : List Token) :
    (insertProducts tokens).IsChain fun a b => Apart a.lexeme b.lexeme := by
  induction tokens with
  | nil => exact .nil
  | cons a tokens ih =>
    cases tokens with
    | nil => exact .singleton a
    | cons b rest =>
      rw [insertProducts]
      split
      · refine .cons_cons (by simp [Apart, product, startsOperand]) (List.isChain_cons.mpr ⟨?_, ih⟩)
        intro first _
        simp [Apart, product, endsOperand]
      · rename_i together
        refine List.isChain_cons.mpr ⟨?_, ih⟩
        intro first here
        rw [head?_insertProducts, List.head?_cons, Option.mem_some_iff] at here
        subst first
        simpa [Apart] using together

theorem scannable_ofText (text : String) : Scannable ((ofText text).map lexeme) where
  known := by
    intro l listed
    obtain ⟨t, member, rfl⟩ := List.mem_map.mp listed
    exact isKnown_lexeme fun name same => legible_of_mem_ofText (same ▸ member)
  apart := by
    rw [List.isChain_map]
    exact isChain_insertProducts _

/-- The text of a token is read as that token alone. -/
theorem ofText_text {t : Token} (known : t.lexeme.isKnown) : ofText t.text = [t] := by
  cases t using lexeme_cases with
  | var name => exact ofChars_name known
  | prefixNot m => exact ofText_negationMark m
  | mark m => exact ofText_mark m
  | word g =>
    have spelled : Gate.ofName? g.name = some g := by
      rw [Gate.ofName?, Gate.toList_name, Gate.ofLetters?_letters]
    exact ofText_of_ofName? spelled
  | postfixNot | leftParen | rightParen | comma => rfl

theorem seam_of_apart {a b : Token} (apart : Apart a.lexeme b.lexeme) (rest : List Token) :
    seam [a] (b :: rest) = [] := by
  simpa [Apart, seam] using apart

/-- No seam between the texts of neighbours needs a product, so blanks between them are enough. -/
theorem ofText_intercalate_text {tokens : List Token} (scannable : Scannable (tokens.map lexeme)) :
    ofText (" ".intercalate (tokens.map text)) = tokens := by
  obtain ⟨known, apart⟩ := scannable
  induction tokens with
  | nil => rfl
  | cons a tokens ih =>
    have first := ofText_text (known a.lexeme List.mem_cons_self)
    cases tokens with
    | nil => rwa [List.map_singleton, String.intercalate_singleton]
    | cons b rest =>
      obtain ⟨here, behind⟩ := List.isChain_cons_cons.mp apart
      have later := ih (fun l listed => known l (List.mem_cons_of_mem _ listed)) behind
      rw [List.map_cons] at later
      rw [List.map_cons, List.map_cons, String.intercalate_cons_cons, ofText_append_blank, first,
        later, seam_of_apart here]
      rfl

end Token

namespace Lexeme

open Token

theorem Scannable.ofText_intercalate {ts : List Lexeme} (scannable : Scannable ts) :
    (ofText (" ".intercalate (ts.map text))).map lexeme = ts := by
  obtain ⟨tokens, rfl⟩ := exists_map_lexeme scannable.known
  have texts : (tokens.map lexeme).map text = tokens.map Token.text := by
    rw [List.map_map]
    exact List.map_congr_left fun t _ => text_lexeme t
  rw [texts, ofText_intercalate_text scannable]

/-- Text is scanned into exactly those lists in which names can be spelled, operators are known and
no operand directly follows another; and exactly these come back when their texts are joined by
blanks and scanned. -/
theorem scanned_iff (ts : List Lexeme) :
    ((∃ text, (ofText text).map lexeme = ts) ↔ Scannable ts) ∧
    (Scannable ts ↔ (ofText (" ".intercalate (ts.map text))).map lexeme = ts) := by
  have sound : (∃ text, (ofText text).map lexeme = ts) → Scannable ts := by
    rintro ⟨text, rfl⟩
    exact scannable_ofText text
  exact ⟨⟨sound, fun scannable => ⟨_, scannable.ofText_intercalate⟩⟩,
    Scannable.ofText_intercalate, fun back => sound ⟨_, back⟩⟩

end Lexeme

end Switching
