/-!
# Decimal numerals

A numeral is an optional sign, decimal digits with at most one point among
them, and an optional exponent of ten. At least one digit stands beside the
point, and at least one follows an exponent mark. A numeral without point and
exponent denotes an integer; every numeral denotes a double, the one nearest to
its exact value.
-/

namespace Lisp.Decimal

/-- A signed exponent of ten, as written. -/
structure Exponent where
  negative : Bool
  digits : List Char
  deriving DecidableEq, Repr

/-- A numeral, as written: `whole` stands before the point and `fraction`, if
there is a point, after it. -/
structure Numeral where
  negative : Bool
  whole : List Char
  fraction : Option (List Char)
  exponent : Option Exponent
  deriving DecidableEq, Repr

/-- The number that a run of decimal digits denotes. -/
def valueOfDigits (ds : List Char) : Nat :=
  ds.foldl (fun n d => 10 * n + (d.toNat - 48)) 0

/-- Splits off a sign; true for a minus. -/
def splitSign : List Char → Bool × List Char
  | '+' :: rest => (false, rest)
  | '-' :: rest => (true, rest)
  | rest => (false, rest)

namespace Exponent

/-- Reads all of a text as what follows an exponent mark. -/
def read? (cs : List Char) : Option Exponent :=
  let (negative, digits) := splitSign cs
  if digits ≠ [] ∧ digits.all Char.isDigit then some ⟨negative, digits⟩ else none

def value (e : Exponent) : Int :=
  if e.negative then -(valueOfDigits e.digits : Int) else valueOfDigits e.digits

end Exponent

namespace Numeral

/-- Reads what follows the digits of a numeral: nothing, or an exponent. -/
def readExponent? : List Char → Option (Option Exponent)
  | [] => some none
  | c :: rest => if c = 'e' ∨ c = 'E' then (Exponent.read? rest).map some else none

/-- Reads all of a text as a numeral. -/
def read? (cs : List Char) : Option Numeral := do
  let (negative, body) := splitSign cs
  let whole := body.takeWhile Char.isDigit
  let (fraction, tail) := match body.dropWhile Char.isDigit with
    | '.' :: rest => (some (rest.takeWhile Char.isDigit), rest.dropWhile Char.isDigit)
    | rest => (none, rest)
  guard (whole ≠ [] ∨ fraction.getD [] ≠ [])
  let exponent ← readExponent? tail
  return ⟨negative, whole, fraction, exponent⟩

/-- The integer that a numeral without point and exponent denotes. -/
def toInt? (n : Numeral) : Option Int :=
  match n.fraction, n.exponent with
  | none, none =>
    some (if n.negative then -(valueOfDigits n.whole : Int) else valueOfDigits n.whole)
  | _, _ => none

/-- The double nearest to `m * 10 ^ e`. Far outside the range of doubles it is
infinity or zero, and no power of ten is computed. -/
def nearest (m : Nat) (e : Int) : Float :=
  let size : Int := (Nat.toDigits 10 m).length
  if m = 0 ∨ size + e < -330 then 0.0
  else if size + e > 310 then 1.0 / 0.0
  else Float.ofScientific m (decide (e < 0)) e.natAbs

/-- The double nearest to the value of a numeral. -/
def toFloat (n : Numeral) : Float :=
  let fraction := n.fraction.getD []
  let e := (n.exponent.map Exponent.value).getD 0
  let magnitude := nearest (valueOfDigits (n.whole ++ fraction)) (e - fraction.length)
  if n.negative then -magnitude else magnitude

end Numeral

/-- The signed 64-bit integer with a given value, if there is one. -/
def word64? (n : Int) : Option Int64 :=
  if Int64.minValue.toInt ≤ n ∧ n ≤ Int64.maxValue.toInt then some (Int64.ofInt n) else none

/-- Whether a text spells a number or one of the values `inf`, `infinity` and
`nan`, in any case and with an optional sign. -/
def spellsNumber (cs : List Char) : Bool :=
  (Numeral.read? cs).isSome ||
    ["inf".toList, "infinity".toList, "nan".toList].contains
      ((splitSign cs).2.map Char.toLower)

example : (Numeral.read? "-12".toList).bind Numeral.toInt? = some (-12) := by decide

example : (Numeral.read? "1.e5".toList).isSome ∧ (Numeral.read? ".e5".toList).isNone := by
  decide

end Lisp.Decimal
