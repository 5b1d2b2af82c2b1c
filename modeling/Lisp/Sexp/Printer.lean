import Lisp.Sexp.Basic
import Lisp.Sexp.Spelling
import Lisp.Text.Quoted
import Lisp.Decimal.Shortest

/-!
# The printed form

An atom prints as the reader reads it, a function as a description between
angle brackets. A list prints its elements between parentheses, with a dot
before the end of an improper one. A pair that was written with a mark prints
with the mark again while it still is a list of two elements.

Printing puts the characters of an expression in front of those that follow it,
so that a printed list costs no more than its length.
-/

namespace Lisp.Sexp

variable {κ φ : Type} [Described φ]

/-- An integer in decimal digits. -/
def writeInteger (n : Int64) : List Char :=
  let i := n.toInt
  (if i < 0 then ['-'] else []) ++ Nat.toDigits 10 i.natAbs

/-- The printed form of an atom. -/
def writeAtom : Sexp κ φ → List Char
  | .bool true => ['t']
  | .integer n => writeInteger n
  | .float x => Decimal.text x
  | .string s => Text.Quoted.literal s.toList
  | .symbol s => Symbol.spelling s.toList
  | .function f => (Described.describe f).toList
  | _ => ['n', 'i', 'l']

mutual

/-- The printed form of an expression, followed by more characters. -/
def write : Sexp κ φ → List Char → List Char
  | .pair _ mark car cdr, rest =>
    match mark, cdr with
    | some m, .pair _ _ operand last =>
      if last.isNil then m.sign ++ write operand rest
      else '(' :: write car (' ' :: write operand (writeTail last rest))
    | _, cdr => '(' :: write car (writeTail cdr rest)
  | e, rest => e.writeAtom ++ rest

/-- The elements of a list after its first, and the closing parenthesis. -/
def writeTail : Sexp κ φ → List Char → List Char
  | .pair _ _ car cdr, rest => ' ' :: write car (writeTail cdr rest)
  | e, rest =>
    if e.isNil then ')' :: rest
    else ' ' :: '.' :: ' ' :: (e.writeAtom ++ ')' :: rest)

end

/-- The printed form of an expression. -/
def text (e : Sexp κ φ) : String := String.ofList (e.write [])

end Lisp.Sexp
