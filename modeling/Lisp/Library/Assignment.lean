import Lisp.Library.Body

/-!
# Assignment and global definitions

Assignments take names and values in turn, and change the nearest value of each
name. Global definitions go to the root scope.
-/

namespace Lisp.Library

/-- Assigns the values of expressions to names, counted from an index on; `last`
is the value assigned before. -/
def assignEvaluated (site : Site) (index : Nat) (last : Expr) : List Expr → Program Expr
  | target :: e :: rest => do
    let name ← site.symbol index target
    let v ← site.eval e
    Program.assign site.scope name v
    assignEvaluated site (index + 2) v rest
  | _ => .done last

/-- Assigns values to names. -/
def assignGiven (site : Site) (index : Nat) (last : Expr) : List Expr → Program Expr
  | target :: v :: rest => do
    let name ← site.symbol index target
    Program.assign site.scope name v
    assignGiven site (index + 2) v rest
  | _ => .done last

/-- Refuses an odd number of arguments before anything is done. -/
def inPairs (run : Site → List Expr → Program Expr) : Body :=
  .variadic fun site args =>
    if args.length % 2 = 0 then run site args else .fail (site.misuse .oddArguments)

def assignment : Body := inPairs fun site args => assignEvaluated site 0 .nil args

def assignmentOfValues : Body := inPairs fun site args => assignGiven site 0 .nil args

/-- Defines a global variable unless it has a value already, in which case the
initial expression is not evaluated. -/
def globalVariable : Body :=
  .oneOrTwo fun site target initial? => do
    let name ← site.symbol 0 target
    match initial? with
    | none => return target
    | some e =>
      if (← Program.valueOf Store.root name).isSome then return target
      else
        let v ← site.eval e
        Program.defineGlobal name v
        return target

def globalParameter : Body :=
  .binary fun site target e => do
    let name ← site.symbol 0 target
    let v ← site.eval e
    Program.defineGlobal name v
    return target

def globalConstant : Body :=
  .binary fun site target e => do
    let name ← site.symbol 0 target
    let v ← site.eval e
    Program.defineConstant name v
    return target

end Lisp.Library
