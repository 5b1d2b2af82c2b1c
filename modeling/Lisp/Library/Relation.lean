import Lisp.Library.Body

/-!
# Comparisons and predicates

A comparison of several arguments holds when it holds between each argument and
the next; it stops at the first pair for which it fails. Predicates of one
argument ask for its type, its value or its binding.
-/

namespace Lisp.Library

/-- Whether a relation holds between all neighbours. -/
def chained (holds : Expr → Expr → Except Error Bool) : List Expr → Except Error Bool
  | a :: b :: rest => do
    if ← holds a b then chained holds (b :: rest) else return false
  | _ => .ok true

/-- A comparison of at least one argument. -/
def comparison (holds : Site → Expr → Expr → Except Error Bool) : Body :=
  .atLeastOne fun site first rest => do
    return .bool (← chained (holds site) (first :: rest))

/-- The order of two values, or the error that they have none. -/
def order (site : Site) (a b : Expr) : Except Error Ordering :=
  match a.compare? b with
  | some o => .ok o
  | none => .error (site.misuse (.incomparable a.typeName b.typeName))

/-- A comparison by the order of values. -/
def ordered (accept : Ordering → Bool) : Body :=
  comparison fun site a b => (order site a b).map accept

/-- A comparison by structural equality. -/
def equality (expected : Bool) : Body :=
  comparison fun _ a b => .ok (a.equal b == expected)

/-- A question about a value alone. -/
def predicate (holds : Expr → Bool) : Body :=
  .unary fun _ e => .done (.bool (holds e))

def sameObject : Body := .binary fun _ a b => .done (.bool (a.eql b))

def isInteger : Expr → Bool
  | .integer _ => true
  | _ => false

def isFloat : Expr → Bool
  | .float _ => true
  | _ => false

def isString : Expr → Bool
  | .string _ => true
  | _ => false

def isSymbol : Expr → Bool
  | .symbol _ => true
  | _ => false

def isFunction : Expr → Bool
  | .function _ => true
  | _ => false

/-- Zero of either type and either sign. -/
def isZero (e : Expr) : Bool :=
  match e.number? with
  | some x => x == 0.0
  | none => false

/-- Only integers are even or odd. -/
def hasParity (remainder : Nat) : Expr → Bool
  | .integer n => n.toInt % 2 == remainder
  | _ => false

def hasValue : Body :=
  .unary fun site e => do
    let name ← site.symbol 0 e
    return .bool (← Program.valueOf site.scope name).isSome

def hasFunction : Body :=
  .unary fun site e => do
    let name ← site.symbol 0 e
    return .bool (← Program.functionOf site.scope name).isSome

/-- A symbol is constant when its nearest binding is read-only, and every other
atom is. -/
def constant : Body :=
  .unary fun site e =>
    match e with
    | .symbol name => do return .bool (← Program.isConstant site.scope name)
    | .pair .. => .done (.bool false)
    | _ => .done (.bool true)

end Lisp.Library
