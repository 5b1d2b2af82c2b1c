import Lisp.Program

/-!
# Call sites

What a function knows about the call that it answers: its own name, which its
errors begin with, and the scope of the caller. Most checks of arguments are
made here. Each names the argument by its place among the arguments, counted
from zero.
-/

namespace Lisp

/-- The name of the function that was called and the scope of its caller. -/
structure Site where
  name : String
  scope : ScopeId

namespace Site

variable {α : Type}

/-- The error for a misuse of the function. -/
def misuse (site : Site) (m : Misuse) : Error := .parameters site.name m

/-- The error for an argument of the wrong type. -/
def wrongType (site : Site) (index : Nat) (expected : Expectation) (received : Expr) : Error :=
  site.misuse (.wrongType index expected received.typeName)

/-- The argument at an index. -/
def argument (site : Site) (args : List Expr) (index : Nat) : Except Error Expr :=
  match args[index]? with
  | some e => .ok e
  | none => .error (site.misuse (.missing index))

def symbol (site : Site) (index : Nat) : Expr → Except Error String
  | .symbol name => .ok name
  | e => .error (site.wrongType index .symbol e)

def integer (site : Site) (index : Nat) : Expr → Except Error Int64
  | .integer n => .ok n
  | e => .error (site.wrongType index .integer e)

def float (site : Site) (index : Nat) (e : Expr) : Except Error Float :=
  match e.number? with
  | some x => .ok x
  | none => .error (site.wrongType index .number e)

def string (site : Site) (index : Nat) : Expr → Except Error String
  | .string text => .ok text
  | e => .error (site.wrongType index .string e)

/-- The elements of a proper list. -/
def list (site : Site) (index : Nat) (e : Expr) : Except Error (List Expr) :=
  if e.isList then
    match e.properItems? with
    | some items => .ok items
    | none => .error (site.wrongType index .properList e)
  else .error (site.wrongType index .list e)

/-- A function, or the function that a symbol names. -/
def function (site : Site) (index : Nat) : Expr → Program Function
  | .function f => .done f
  | .symbol name => do
    match ← Program.functionOf site.scope name with
    | some (.function f) => return f
    | _ => Program.fail (site.misuse (.undefinedFunction name))
  | e => .fail (site.wrongType index .function e)

/-- Evaluates an expression in the scope of the caller. -/
def eval (site : Site) (e : Expr) : Program Expr := .evalIn site.scope e

/-- Calls a function from the scope of the caller. -/
def call (site : Site) (f : Function) (args : List Expr) : Program Expr :=
  .call f args site.scope .done

end Site

end Lisp
