import Lisp.Sexp.Basic

/-!
# Equality and order of expressions

Three relations. `equal` compares structure: numbers by value, so that an
integer may equal a float, lists element by element, marks ignored. `eql` also
looks at types and takes two pairs for equal only when they are one object.
`compare?` orders numbers by value and strings and symbols by code points, and
is undefined on everything else and on NaN.

A pair that is one object with another equals it without a look inside, also
where NaN stands in both.
-/

namespace Lisp.Sexp

variable {κ φ : Type} [Identified κ] [Identified φ]

/-- Structural equality. -/
def equal : Sexp κ φ → Sexp κ φ → Bool
  | .pair i _ a d, .pair j _ a' d' => Identified.same i j || (equal a a' && equal d d')
  | .integer m, .integer n => m == n
  | .integer m, .float y => Float.ofInt m.toInt == y
  | .float x, .integer n => x == Float.ofInt n.toInt
  | .float x, .float y => x == y
  | .string s, .string t => s == t
  | .symbol s, .symbol t => s == t
  | .function f, .function g => Identified.same f g
  | .bool true, .bool true => true
  | a, b => a.isNil && b.isNil

/-- The same atom of the same type, or one object. -/
def eql : Sexp κ φ → Sexp κ φ → Bool
  | .integer m, .integer n => m == n
  | .float x, .float y => x == y
  | .string s, .string t => s == t
  | .symbol s, .symbol t => s == t
  | .pair i _ _ _, .pair j _ _ _ => Identified.same i j
  | .function f, .function g => Identified.same f g
  | .bool true, .bool true => true
  | a, b => a.isNil && b.isNil

/-- The order of two doubles, unless one of them is NaN. -/
def compareFloats? (x y : Float) : Option Ordering :=
  if x < y then some .lt
  else if x == y then some .eq
  else if y < x then some .gt
  else none

/-- The order of two numbers, two strings or two symbols. -/
def compare? {κ φ : Type} : Sexp κ φ → Sexp κ φ → Option Ordering
  | .integer m, .integer n => some (compare m.toInt n.toInt)
  | .string s, .string t => some (compare s t)
  | .symbol s, .symbol t => some (compare s t)
  | a, b =>
    match a.number?, b.number? with
    | some x, some y => compareFloats? x y
    | _, _ => none

end Lisp.Sexp
