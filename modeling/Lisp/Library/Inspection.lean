import Lisp.Library.Body

/-!
# Inspection, output and scripts

Builtins that look at values and at evaluation itself, that print, and that
load a script.
-/

namespace Lisp.Library

def typeSymbol : Body := .unary fun _ e => .done (.symbol e.typeName)

def functionOfSymbol : Body :=
  .unary fun site e => do
    let name ← site.symbol 0 e
    match ← Program.functionOf site.scope name with
    | some f => return f
    | none => Program.fail (.runtime (.undefinedFunction name))

/-- The value of an expression and what its evaluation counted. -/
def countedEvaluation : Body :=
  .unary fun site e => do
    let before ← Program.counters
    let v ← site.eval e
    let after ← Program.counters
    let counted ← Program.place (after.since before).toDatum
    Program.list [v, counted]

def tracedEvaluation : Body := .unary fun site e => .traced site.scope e .done

/-- The value of an expression and the milliseconds that its evaluation took. -/
def timedEvaluation : Body :=
  .unary fun site e => do
    let v ← site.eval e
    let milliseconds ← Program.elapsed
    Program.list [v, .float milliseconds]

/-- Prints the arguments on one line and returns the last of them. -/
def printed : Body :=
  .variadic fun _ args => do
    Program.print (" ".intercalate (args.map Sexp.text))
    return args.getLast?.getD .nil

/-- Evaluates all forms of a file in the root scope. -/
def loaded : Body :=
  .unary fun site e => do
    let path ← site.string 0 e
    let text ← Program.file path
    Program.evalText path text

end Lisp.Library
