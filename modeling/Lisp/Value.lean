import Lisp.Builtin
import Lisp.Sexp.Comparison
import Lisp.Sexp.Printer

/-!
# Values of a running program

The values are expressions whose pairs and functions are objects, told apart by
their identities. Functions of the program are of three kinds. Named functions
and lambdas run in a scope below that of their caller; a closure runs in a scope
below the one that it captured. Beside them stand the builtins and the functions
that an embedding program has registered.
-/

namespace Lisp

/-- The identity of a pair or a function. -/
structure ObjectId where
  index : Nat
  deriving DecidableEq, Repr

/-- The identity of a scope. -/
structure ScopeId where
  index : Nat
  deriving DecidableEq, Repr

/-- What a function does, over expressions in `ε`. A registered function is
known by its name and by its place in the table of registered functions. -/
inductive Code (ε : Type) where
  | builtin (op : Builtin)
  | registered (name : String) (entry : Nat)
  | named (name : String) (parameters : List String) (body : List ε)
  | lambda (parameters : List String) (body : List ε)
  | closure (parameters : List String) (body : List ε) (scope : ScopeId)

namespace Code

variable {ε : Type}

/-- The name of a function in errors and call traces. -/
def name : Code ε → String
  | builtin op => op.name
  | registered name _ => name
  | named name _ _ => name
  | lambda _ _ => "lambda"
  | closure _ _ _ => "closure"

/-- Whether a function receives its arguments unevaluated. -/
def isSpecial : Code ε → Bool
  | builtin op => op.isSpecial
  | _ => false

/-- The printed form of a function. -/
def describe : Code ε → String
  | builtin op =>
    (if op.isSpecial then "#<special-form " else "#<builtin-function ") ++ op.name ++ ">"
  | registered name _ => "#<builtin-function " ++ name ++ ">"
  | named name _ _ => "#<function " ++ name ++ ">"
  | lambda _ _ => "#<lambda>"
  | closure _ _ _ => "#<closure>"

end Code

/-- A function as an object. -/
inductive Function where
  | object (id : ObjectId) (code : Code (Sexp ObjectId Function))

/-- A value of a running program, and also an expression to be evaluated. -/
abbrev Expr := Sexp ObjectId Function

namespace Function

def id : Function → ObjectId
  | object id _ => id

def code : Function → Code Expr
  | object _ code => code

def name (f : Function) : String := f.code.name

def isSpecial (f : Function) : Bool := f.code.isSpecial

end Function

instance : Identified ObjectId := ⟨fun a b => decide (a = b)⟩

instance : Identified Function := ⟨fun f g => decide (f.id = g.id)⟩

instance : Described Function := ⟨fun f => f.code.describe⟩

end Lisp
