import Switching.Token.Basic

/-! Scanning text into tokens. A word starts at an ASCII letter and runs on
over letters and digits; it is a gate name or a run of names, each a letter
with the digits after it. Characters with no meaning are dropped. -/
namespace Switching.Token

/-- The names in a word: each letter with the digits that follow it. -/
def splitNames (word : List Char) : List (List Char) := word.splitBy fun _ next => next.isDigit

def ofWord (word : List Char) : List Token :=
  match Gate.ofLetters? word with
  | some g => [.operator (.word g)]
  | none => (splitNames word).map fun name => .var (String.ofList name)

/-- Whether a character prolongs a word already read; an empty one needs a letter. -/
def prolongs (word : List Char) (c : Char) : Bool := c.isAlpha || (c.isDigit && !word.isEmpty)

/-- Scans the rest of a text in which `word` has just been read. -/
def scanAfter (word : List Char) : List Char → List Token
  | [] => ofWord word
  | c :: rest =>
    if prolongs word c then scanAfter (word ++ [c]) rest
    else ofWord word ++ (ofChar? c).toList ++ scanAfter [] rest

/-- Puts the product sign between operands that stand side by side. -/
def insertProducts : List Token → List Token
  | a :: b :: rest =>
    if a.endsOperand && b.startsOperand then a :: product :: insertProducts (b :: rest)
    else a :: insertProducts (b :: rest)
  | tokens => tokens

def ofText (text : String) : List Token := insertProducts (scanAfter [] text.toList)

@[simp] theorem ofWord_nil : ofWord [] = [] := rfl

end Switching.Token
