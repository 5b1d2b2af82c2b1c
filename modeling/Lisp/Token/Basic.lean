import Lisp.Sexp.Basic
import Lisp.Text.Place
import Lisp.Decimal.Numeral

/-!
# Tokens

A token is a lexeme together with the positions of its first and of its last
character. The text of a string or a symbol is the decoded one, that of a
comment includes the semicolon. A symbol is marked as escaped when a backslash
or a run between bars occurred in it; it is then a symbol whatever its name.
-/

namespace Lisp

/-- What a token is. -/
inductive Lexeme where
  | leftParen
  | rightParen
  | mark (mark : Mark)
  | comment (text : String)
  | integer (text : String) (value : Int64)
  | float (text : String) (value : Float)
  | string (text : String)
  | symbol (name : String) (escaped : Bool)

namespace Lexeme

/-- The text of a token, decoded where it was escaped. -/
def text : Lexeme → String
  | leftParen => "("
  | rightParen => ")"
  | mark m => String.ofList m.sign
  | comment text => text
  | integer text _ => text
  | float text _ => text
  | string text => text
  | symbol name _ => name

def isEscaped : Lexeme → Bool
  | symbol _ escaped => escaped
  | _ => false

/-- The bare dot, which may stand before the end of an improper list. -/
def isDot : Lexeme → Bool
  | symbol name escaped => !escaped && name == "."
  | _ => false

/-- What the characters of an atom amount to: an integer if they are a numeral
without point and exponent whose value fits into 64 bits, otherwise a float if
they are a numeral at all, otherwise a symbol. -/
def ofAtom (cs : List Char) (escaped : Bool) : Lexeme :=
  let text := String.ofList cs
  if escaped then .symbol text true
  else match Decimal.Numeral.read? cs with
    | none => .symbol text false
    | some numeral =>
      match numeral.toInt?.bind Decimal.word64? with
      | some n => .integer text n
      | none => .float text numeral.toFloat

end Lexeme

/-- A lexeme and where it stands. -/
structure Token where
  lexeme : Lexeme
  first : Position
  last : Position

end Lisp
