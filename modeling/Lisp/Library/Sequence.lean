import Lisp.Library.Relation
import Lisp.MergeSort

/-!
# Lists and strings

The first and second part of `nil` are `nil`, and so is every element past the
end of a list. Lists are built anew except for the last argument of `append`
and the tails that `cdr`, `last` and `member` return, which are shared.
-/

namespace Lisp.Library

def listOf : Body := .variadic fun _ args => Program.list args

def pairOf : Body := .binary fun _ a b => Program.cons a b

/-- The element at an index of a value that has to be a list. -/
def element (site : Site) (index : Nat) (e : Expr) : Except Error Expr :=
  if e.isList then .ok (e.nthItem index) else .error (site.wrongType 0 .list e)

def elementAt (index : Nat) : Body :=
  .unary fun site e => do return ← element site index e

def restOf : Body :=
  .unary fun site e =>
    match e with
    | .pair _ _ _ cdr => .done cdr
    | e => if e.isNil then .done .nil else .fail (site.wrongType 0 .list e)

def lastPair : Body :=
  .unary fun site e =>
    if e.isList then .done e.lastPair else .fail (site.wrongType 0 .list e)

/-- The elements of several lists, which are arguments from an index on. -/
def concatenated (site : Site) (index : Nat) : List Expr → Except Error (List Expr)
  | [] => .ok []
  | e :: rest => do
    let items ← site.list index e
    return items ++ (← concatenated site (index + 1) rest)

def appended : Body :=
  .variadic fun site args =>
    match args.getLast? with
    | none => .done .nil
    | some tail => do
      let items ← concatenated site 0 args.dropLast
      Program.listWithTail items tail

def reversed : Body :=
  .unary fun site e => do
    let items ← site.list 0 e
    Program.list items.reverse

/-- The number of characters of a string or of elements of a list. -/
def size : Body :=
  .unary fun site e =>
    match e with
    | .string text => .done (.integer (Int64.ofNat text.length))
    | e => do
      let items ← site.list 0 e
      return .integer (Int64.ofNat items.length)

/-- The tail of a list from the first element that equals a value. -/
def tailFrom (v : Expr) : Expr → Expr
  | e@(.pair _ _ car cdr) => if car.equal v then e else tailFrom v cdr
  | _ => .nil

def memberOf : Body :=
  .binary fun site v e =>
    if e.isList then .done (tailFrom v e) else .fail (site.wrongType 1 .list e)

def indexed : Body :=
  .binary fun site i e => do
    let n ← site.integer 0 i
    if n.toInt < 0 then
      Program.fail (site.misuse (.negativeIndex n))
    else
      return ← element site n.toInt.toNat e

/-- Whether a value goes before another by the natural order. -/
def naturallyLess (site : Site) (a b : Expr) : Except Error Bool :=
  (order site a b).map (· == .lt)

/-- Whether a value goes before another by a function of the program. -/
def lessBy (site : Site) (f : Function) (a b : Expr) : Program Bool := do
  return (← site.call f [a, b]).isTrue

def sorted : Body :=
  .oneOrTwo fun site e predicate? => do
    let items ← site.list 0 e
    match predicate? with
    | none => do
      let result ← Program.ofExcept (mergeSort (naturallyLess site) items)
      Program.list result
    | some p => do
      let f ← site.function 1 p
      let result ← mergeSort (lessBy site f) items
      Program.list result

end Lisp.Library
