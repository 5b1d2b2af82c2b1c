import Lisp.Library.Body
import Lisp.Number

/-!
# Numeric builtins

Sums, differences, products and quotients of any number of arguments are
computed from left to right. Arguments are checked as they are reached, so an
overflow on the way is reported before a wrong argument further on.
-/

namespace Lisp.Library

/-- A number among the arguments. -/
def number (site : Site) (index : Nat) (e : Expr) : Except Error Number :=
  match Number.ofExpr? e with
  | some n => .ok n
  | none => .error (site.wrongType index .number e)

/-- The result of one operation, or the error that names the function. -/
def arithmetic (site : Site) : Except ArithmeticFault Number → Except Error Number
  | .ok n => .ok n
  | .error .overflow => .error (.runtime (.integerOverflow site.name))
  | .error .divisionByZero => .error (.runtime (.divisionByZero site.name))

/-- Combines a number with the arguments one after the other. They are counted
from a given index on. -/
def accumulate (site : Site) (op : Number → Number → Except ArithmeticFault Number)
    (acc : Number) (index : Nat) : List Expr → Except Error Number
  | [] => .ok acc
  | e :: rest => do
    let n ← number site index e
    let acc ← arithmetic site (op acc n)
    accumulate site op acc (index + 1) rest

/-- A sum or a product, which starts from a neutral number. -/
def total (op : Number → Number → Except ArithmeticFault Number) (neutral : Int64) : Body :=
  .variadic fun site args => do
    let n ← accumulate site op (.integer neutral) 0 args
    return n.toExpr

/-- A difference or a quotient. A single argument is combined with a neutral
number on its left. The arguments after the first are counted from zero. -/
def reduction (op : Number → Number → Except ArithmeticFault Number) (neutral : Int64) : Body :=
  .atLeastOne fun site first rest => do
    let n ← number site 0 first
    if rest.isEmpty then
      return (← arithmetic site (op (.integer neutral) n)).toExpr
    else
      return (← accumulate site op n 0 rest).toExpr

/-- An operation with the integer one on its right. -/
def stepBy (op : Number → Number → Except ArithmeticFault Number) : Body :=
  .unary fun site e => do
    let n ← number site 0 e
    return (← arithmetic site (op n (.integer 1))).toExpr

def modulus : Body :=
  .binary fun site a b => do
    let x ← number site 0 a
    let y ← number site 1 b
    return (← arithmetic site (x.modulo y)).toExpr

end Lisp.Library
