/-!
# Shortest decimals

A positive double is `m * 2 ^ q`. The reals that round to it form an interval
around it, whose ends belong to it exactly when `m` is even. The shortest
decimal of the double is the point of this interval with the fewest significant
digits; among points with as many digits it is the nearest to the double, and of
two equally near ones the larger.

For each number of digits in turn only two decimals have to be tried, the
neighbours of the double on the grid of decimals with that many digits. All of
it is done in exact arithmetic on natural numbers.
-/

namespace Lisp.Decimal

/-- The decimal `digits * 10 ^ exponent`. -/
structure Scientific where
  digits : Nat
  exponent : Int
  deriving DecidableEq, Repr

/-- A positive double and the interval that rounds to it, over one common
denominator. -/
structure Interval where
  low : Nat
  value : Nat
  high : Nat
  denominator : Nat
  closed : Bool

/-- The interval of `m * 2 ^ q`. Just above a power of two the doubles below lie
twice as dense, and the lower end is half as far away. -/
def Interval.ofBinary (m : Nat) (q : Int) (lowest : Bool) : Interval :=
  let scale := Nat.pow 2 (q - 2).toNat
  let below := if m = Nat.pow 2 52 ∧ ¬lowest then 1 else 2
  { low := (4 * m - below) * scale
    value := 4 * m * scale
    high := (4 * m + 2) * scale
    denominator := Nat.pow 2 (2 - q).toNat
    closed := m % 2 == 0 }

namespace Interval

/-- The position `p` of the leading digit: `10 ^ (p - 1) ≤ value < 10 ^ p`. -/
def magnitude (i : Interval) : Int :=
  if i.denominator ≤ i.value then
    (Nat.toDigits 10 (i.value / i.denominator)).length
  else
    1 - (Nat.toDigits 10 ((i.denominator - 1) / i.value)).length

/-- `n * 10 ^ e` over the denominator of the interval, together with the factor
by which the interval has to be multiplied to be compared with it. -/
def scaled (i : Interval) (n : Nat) (e : Int) : Nat × Nat :=
  (n * Nat.pow 10 e.toNat * i.denominator, Nat.pow 10 (-e).toNat)

/-- Whether the decimal `n * 10 ^ e` rounds to the double. -/
def contains (i : Interval) (n : Nat) (e : Int) : Bool :=
  let (x, factor) := i.scaled n e
  if i.closed then i.low * factor ≤ x && x ≤ i.high * factor
  else i.low * factor < x && x < i.high * factor

/-- The neighbour above may need one digit more, and is then a power of ten. -/
def carried (n count : Nat) (e : Int) : Scientific :=
  if n = Nat.pow 10 count then ⟨1, e + count⟩ else ⟨n, e⟩

/-- The best of the two neighbours with `count` significant digits, if one of
them rounds to the double. -/
def neighbour? (i : Interval) (p : Int) (count : Nat) : Option Scientific :=
  let e := p - count
  let below := i.value * Nat.pow 10 (-e).toNat / (Nat.pow 10 e.toNat * i.denominator)
  match i.contains below e, i.contains (below + 1) e with
  | false, false => none
  | true, false => some ⟨below, e⟩
  | false, true => some (carried (below + 1) count e)
  | true, true =>
    let (x, factor) := i.scaled below e
    let (y, _) := i.scaled (below + 1) e
    if i.value * factor - x < y - i.value * factor then some ⟨below, e⟩
    else some (carried (below + 1) count e)

/-- The shortest decimal, over at most 17 significant digits. Seventeen digits
always suffice. -/
def shortest (i : Interval) : Scientific :=
  let p := i.magnitude
  ((List.range 17).findSome? fun k => i.neighbour? p (k + 1)).getD ⟨0, 0⟩

end Interval

/-- What a double stands for. -/
inductive Magnitude where
  | notANumber
  | infinite
  | zero
  | finite (shortest : Scientific)
  deriving DecidableEq, Repr

/-- Takes a double apart; true for a negative sign. -/
def decompose (x : Float) : Bool × Magnitude :=
  let bits : Nat := x.toBits.toNat
  let biased : Nat := bits / Nat.pow 2 52 % Nat.pow 2 11
  let fraction : Nat := bits % Nat.pow 2 52
  let magnitude :=
    if biased = 2047 then if fraction = 0 then .infinite else .notANumber
    else if biased = 0 then
      if fraction = 0 then .zero
      else .finite (Interval.ofBinary fraction (-1074) true).shortest
    else
      let q : Int := (biased : Int) - 1075
      .finite (Interval.ofBinary (Nat.pow 2 52 + fraction) q (biased == 1)).shortest
  (bits / Nat.pow 2 63 == 1, magnitude)

namespace Scientific

/-- Positional notation without an exponent. A decimal that is an integer gets
the ending `.0`. -/
def positional (d : Scientific) : List Char :=
  let digits := Nat.toDigits 10 d.digits
  if 0 ≤ d.exponent then
    digits ++ List.replicate d.exponent.toNat '0' ++ ['.', '0']
  else
    let places := d.exponent.natAbs
    let padded := List.replicate (places + 1 - digits.length) '0' ++ digits
    padded.take (padded.length - places) ++ '.' :: padded.drop (padded.length - places)

end Scientific

/-- The text of a double: the shortest decimal that reads back, in positional
notation, or one of the words `inf`, `-inf` and `NaN`. Zero keeps its sign. -/
def text (x : Float) : List Char :=
  let (negative, magnitude) := decompose x
  let sign := if negative then ['-'] else []
  match magnitude with
  | .notANumber => "NaN".toList
  | .infinite => sign ++ "inf".toList
  | .zero => sign ++ "0.0".toList
  | .finite d => sign ++ d.positional

example : (Scientific.mk 125 (-2)).positional = "1.25".toList := by decide

example : (Scientific.mk 1 (-3)).positional = "0.001".toList := by decide

end Lisp.Decimal
