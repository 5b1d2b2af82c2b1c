import Lisp.Decimal.Numeral
import Lisp.Value

/-!
# Arithmetic

A number is a signed 64-bit integer or a double. An operation on two integers is
exact or fails: it never wraps around. As soon as one operand is a double the
operation is done in doubles. A division of integers that leaves a remainder
has a double as its quotient.
-/

namespace Lisp

inductive Number where
  | integer (value : Int64)
  | float (value : Float)

/-- Why an operation on integers has no result. -/
inductive ArithmeticFault where
  | overflow
  | divisionByZero
  deriving DecidableEq, Repr

namespace Number

def ofExpr? : Expr → Option Number
  | .integer n => some (integer n)
  | .float x => some (float x)
  | _ => none

def toExpr : Number → Expr
  | integer n => .integer n
  | float x => .float x

def toFloat : Number → Float
  | integer n => Float.ofInt n.toInt
  | float x => x

/-- The integer with a given value, if it fits into 64 bits. -/
def exact (n : Int) : Except ArithmeticFault Number :=
  match Decimal.word64? n with
  | some word => .ok (integer word)
  | none => .error .overflow

def add : Number → Number → Except ArithmeticFault Number
  | integer m, integer n => exact (m.toInt + n.toInt)
  | a, b => .ok (float (a.toFloat + b.toFloat))

def subtract : Number → Number → Except ArithmeticFault Number
  | integer m, integer n => exact (m.toInt - n.toInt)
  | a, b => .ok (float (a.toFloat - b.toFloat))

def multiply : Number → Number → Except ArithmeticFault Number
  | integer m, integer n => exact (m.toInt * n.toInt)
  | a, b => .ok (float (a.toFloat * b.toFloat))

def divide : Number → Number → Except ArithmeticFault Number
  | integer m, integer n =>
    if n.toInt = 0 then .error .divisionByZero
    else if m.toInt.tmod n.toInt = 0 then exact (m.toInt.tdiv n.toInt)
    else .ok (float (Float.ofInt m.toInt / Float.ofInt n.toInt))
  | a, b => .ok (float (a.toFloat / b.toFloat))

/-- The remainder with the sign of the divisor. It belongs to a division, and
fails together with it when the quotient does not fit into 64 bits. -/
def modulo : Number → Number → Except ArithmeticFault Number
  | integer m, integer n =>
    if n.toInt = 0 then .error .divisionByZero
    else do
      let _ ← exact (m.toInt.tdiv n.toInt)
      exact (m.toInt.fmod n.toInt)
  | float x, integer n =>
    if n.toInt = 0 then .error .divisionByZero
    else .ok (float (floatModulo x (Float.ofInt n.toInt)))
  | a, float y => .ok (float (floatModulo a.toFloat y))
where
  floatModulo (x y : Float) : Float := x - y * (x / y).floor

end Number

end Lisp
