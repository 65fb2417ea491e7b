import Switching.Expr.Basic
import Switching.Token.Basic

/-! Writing expressions. Products are written side by side, sums with `+`, `^`
or `⊙`, negation behind its operand. A sum inside a product, or inside a sum of
another mark, stands in parentheses, and so does everything negated but a name
or a negation. -/
namespace Switching

/-- Expanded writing negates the operands of NAND and NOR, compact writing their result. -/
inductive Style where
  | compact | expanded
deriving DecidableEq, Repr

namespace Printer

inductive Binding where
  | atom
  | product
  | sum (mark : GateMark)
deriving DecidableEq, Repr

structure Piece where
  text : List Char
  binding : Binding

namespace Piece

def parenthesized (p : Piece) : List Char := '(' :: p.text ++ [')']

def negate (p : Piece) : Piece :=
  match p.binding with
  | .atom => ⟨p.text ++ ['\''], .atom⟩
  | _ => ⟨p.parenthesized ++ ['\''], .atom⟩

def asFactor (p : Piece) : List Char :=
  match p.binding with
  | .sum _ => p.parenthesized
  | _ => p.text

def asTerm (mark : GateMark) (p : Piece) : List Char :=
  match p.binding with
  | .sum other => if other = mark then p.text else p.parenthesized
  | _ => p.text

end Piece

/-- Whether two factors would be misread side by side: a digit would prolong the name before
it, or the letters that meet would spell a gate. -/
def needsStar (left right : List Char) : Bool :=
  let tail := (left.reverse.takeWhile Char.isAlphanum).reverse
  let head := right.takeWhile Char.isAlphanum
  match tail, head with
  | [], _ | _, [] => false
  | _, c :: _ => c.isDigit || (Gate.ofLetters? (tail.dropWhile Char.isDigit ++ head)).isSome

def joinFactors (left right : List Char) : List Char :=
  if needsStar left right then left ++ '*' :: right else left ++ right

def product (ps : List Piece) : Piece := ⟨(ps.map Piece.asFactor).foldl joinFactors [], .product⟩

def sum (mark : GateMark) (ps : List Piece) : Piece :=
  ⟨[mark.char].intercalate (ps.map (Piece.asTerm mark)), .sum mark⟩

/-- The writing of an expression and of its complement, in which a double negation cancels. -/
structure Forms where
  plain : Piece
  negated : Piece

def Forms.of (p : Piece) : Forms := ⟨p, p.negate⟩

def Forms.negate (f : Forms) : Forms := ⟨f.plain.negate, f.plain⟩

/-- A gate without operands is written as its constant, one with a single operand as that
operand or its negation. -/
def gate (style : Style) (g : Gate) : List Forms → Piece
  | [] => ⟨[if g.eval [] then '1' else '0'], .atom⟩
  | [f] => if g.inverting then f.plain.negate else f.plain
  | fs => match g, style with
    | .and, _ => product (fs.map Forms.plain)
    | .or, _ => sum .plus (fs.map Forms.plain)
    | .xor, _ => sum .caret (fs.map Forms.plain)
    | .xnor, _ =>
      if fs.length = 2 then sum .circledDot (fs.map Forms.plain)
      else (sum .caret (fs.map Forms.plain)).negate
    | .nand, .compact => (product (fs.map Forms.plain)).negate
    | .nand, .expanded => sum .plus (fs.map Forms.negated)
    | .nor, .compact => (sum .plus (fs.map Forms.plain)).negate
    | .nor, .expanded => product (fs.map Forms.negated)

def forms (style : Style) : Expr → Forms :=
  Expr.fold (fun name => .of ⟨name.toList, .atom⟩) Forms.negate fun g fs => .of (gate style g fs)

end Printer

def Expr.print (style : Style) (e : Expr) : String :=
  String.ofList (Printer.forms style e).plain.text

end Switching
