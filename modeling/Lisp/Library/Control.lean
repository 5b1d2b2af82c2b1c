import Lisp.Library.Body

/-!
# Control and binding forms

Special forms receive expressions and decide which of them to evaluate, in
which scope and how often. A lambda becomes a closure when it goes through
`function`. The initial values of `let` are all evaluated outside the scope
that it opens; `let*` opens one scope after another, and evaluates each initial
value in the scope of the bindings before it.
-/

namespace Lisp.Library

def quoted : Body := .unary fun _ e => .done e

/-- The function that a name or an expression stands for. A lambda is turned
into a closure over the scope of the caller. -/
def functionOf : Body :=
  .unary fun site e => do
    let target ← if e.isPair then site.eval e else pure e
    let f ← site.function 0 target
    match f.code with
    | .lambda parameters body =>
      return .function (← Program.newFunction (.closure parameters body site.scope))
    | _ => return .function f

def conditional : Body :=
  .twoOrThree fun site test yes no? => do
    if (← site.eval test).isTrue then site.eval yes
    else match no? with
      | some no => site.eval no
      | none => return .nil

/-- Evaluates up to the first false value; `last` is the value of the expression
before. -/
def conjunctionFrom (site : Site) (last : Expr) : List Expr → Program Expr
  | [] => .done last
  | e :: rest => do
    let v ← site.eval e
    if v.isNil then return .nil else conjunctionFrom site v rest

def conjunction : Body := .variadic fun site args => conjunctionFrom site (.bool true) args

/-- Evaluates up to the first true value. -/
def disjunctionFrom (site : Site) : List Expr → Program Expr
  | [] => .done .nil
  | e :: rest => do
    let v ← site.eval e
    if v.isTrue then return v else disjunctionFrom site rest

def disjunction : Body := .variadic disjunctionFrom

def sequence : Body := .variadic fun site args => Program.evalBody site.scope args

/-- Splits a binding into its name and its initial expression. A binding is a
name, a list of a name, or a list of a name and an expression. -/
def binding (site : Site) (b : Expr) : Except Error (String × Option Expr) :=
  match b with
  | .symbol name => .ok (name, none)
  | .pair _ _ (.symbol name) .nil => .ok (name, none)
  | .pair _ _ (.symbol name) (.pair _ _ initial last) =>
    if last.isNil then .ok (name, some initial)
    else .error (site.misuse (.malformedBinding b.text))
  | b => .error (site.misuse (.malformedBinding b.text))

/-- The value of an initial expression; without one it is `nil`. -/
def initialValue (scope : ScopeId) : Option Expr → Program Expr
  | some e => .evalIn scope e
  | none => .done .nil

/-- Evaluates all initial expressions in the scope of the caller. -/
def initialValues (site : Site) : List Expr → Program (List (String × Expr))
  | [] => .done []
  | b :: rest => do
    let (name, initial?) ← binding site b
    let v ← initialValue site.scope initial?
    return (name, v) :: (← initialValues site rest)

def letParallelBody : Body :=
  .atLeastOne fun site bindings body => do
    let bs ← site.list 0 bindings
    let values ← initialValues site bs
    let inner ← Program.enter site.scope values
    Program.evalBody inner body

/-- Opens a scope for each binding, and one more for the body. -/
def nestedScope (site : Site) (scope : ScopeId) : List Expr → Program ScopeId
  | [] => Program.enter scope []
  | b :: rest => do
    let (name, initial?) ← binding site b
    let v ← initialValue scope initial?
    let inner ← Program.enter scope [(name, v)]
    nestedScope site inner rest

def letSequentialBody : Body :=
  .atLeastOne fun site bindings body => do
    let bs ← site.list 0 bindings
    let inner ← nestedScope site site.scope bs
    Program.evalBody inner body

/-- The names of a parameter list. -/
def parameterNames (site : Site) : List Expr → Except Error (List String)
  | [] => .ok []
  | .symbol name :: rest => do return name :: (← parameterNames site rest)
  | e :: _ => .error (site.misuse (.parameterName e.typeName))

def parameters (site : Site) (e : Expr) : Except Error (List String) :=
  match e.properItems? with
  | some items => parameterNames site items
  | none => .error (site.misuse (.parameterList e.text))

def functionDefinition : Body :=
  .atLeastTwo fun site nameExpr parameterList body => do
    let name ← site.symbol 0 nameExpr
    let ps ← parameters site parameterList
    let f ← Program.newFunction (.named name ps body)
    Program.defineFunction name (.function f)
    return nameExpr

def abstraction : Body :=
  .atLeastOne fun site parameterList body => do
    let ps ← parameters site parameterList
    return .function (← Program.newFunction (.lambda ps body))

/-- Evaluates the tests of clauses up to the first true one. Its value is that
of the clause unless the clause has a body. -/
def clausesFrom (site : Site) : List Expr → Program Expr
  | [] => .done .nil
  | clause :: rest =>
    match clause.properItems? with
    | some (test :: body) => do
      let v ← site.eval test
      if v.isTrue then
        if body.isEmpty then return v else Program.evalBody site.scope body
      else clausesFrom site rest
    | _ => .fail (site.misuse (.malformedClause clause.text))

def clauses : Body := .variadic clausesFrom

/-- A body that is evaluated when a test has the expected truth. -/
def guarded (expected : Bool) : Body :=
  .atLeastOne fun site test body => do
    if (← site.eval test).isTrue == expected then Program.evalBody site.scope body
    else return .nil

def evaluation : Body := .unary fun site e => site.eval e

/-- Calls a function; the last argument is a list of further arguments. -/
def application : Body :=
  .atLeastTwo fun site function first rest => do
    let f ← site.function 0 function
    let args := first :: rest
    let spread ← site.list args.length ((first :: rest).getLast (by simp))
    site.call f (args.dropLast ++ spread)

def functionCall : Body :=
  .atLeastOne fun site function args => do
    let f ← site.function 0 function
    site.call f args

end Lisp.Library
