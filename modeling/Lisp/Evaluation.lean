import Lisp.Library.Table
import Lisp.Machine

/-!
# Evaluation

A symbol evaluates to its value, a pair is a call, and every other expression is
a literal. The head of a call is resolved to a function first; then the
arguments are evaluated in order, unless the function is a special form.

Calls may be nested only so deeply. Evaluation is defined in two layers: of one
expression, by recursion on the expression, given how functions are applied; and
of applications, by recursion on the number of calls that may still be nested.
Every evaluation therefore ends.
-/

namespace Lisp

/-- The function that a value is, if it is one. -/
def functionOfValue : Expr → Run Function
  | .function f => return f
  | v => throw (.runtime (.notFunction v.text))

/-- The function that a symbol at the head of a call names. -/
def functionNamed (scope : ScopeId) (name : String) : Run Function := do
  modify Machine.countLookup
  match (← get).store.function? scope name with
  | some (.function f) => return f
  | some v => throw (.runtime (.boundToNonFunction name v.text))
  | none => throw (.runtime (.undefinedFunction name))

/-- The function at the head of a call; `evaluated` evaluates the head. -/
def callee (scope : ScopeId) (head : Expr) (evaluated : Run Expr) : Run Function :=
  match head with
  | .symbol name => functionNamed scope name
  | .pair .. => do
    let v ← evaluated
    functionOfValue v
  | e => functionOfValue e

/-- How a function is applied to arguments from a scope. -/
abbrev Applier := Function → List Expr → ScopeId → Run Expr

mutual

/-- The value of an expression in a scope. -/
def evaluate (apply : Applier) (scope : ScopeId) : Expr → Run Expr
  | .symbol name => do
    modify Machine.countEvaluation
    modify Machine.countLookup
    match (← get).store.value? scope name with
    | some v => return v
    | none => throw (.symbolNotFound name)
  | .pair id mark head args => do
    modify Machine.countEvaluation
    let f ← callee scope head (evaluate apply scope head)
    match args.properItems? with
    | none =>
      throw (.runtime (.improperArguments (Sexp.pair id mark head args).text))
    | some items =>
      let values ← if f.isSpecial then pure items else evaluateItems apply scope args
      apply f values scope
  | e => do
    modify Machine.countEvaluation
    modify Machine.countLiteral
    return e

/-- The values of the elements of a list, in order. -/
def evaluateItems (apply : Applier) (scope : ScopeId) : Expr → Run (List Expr)
  | .pair _ _ e rest => do
    let v ← evaluate apply scope e
    let vs ← evaluateItems apply scope rest
    return v :: vs
  | _ => return []

end

/-- Runs with call tracing switched on, and restores the setting. -/
def traced {α : Type} (run : Run α) : Run α := fun m =>
  let before := m.tracing
  match run { m with tracing := true } with
  | .ok a m => .ok a { m with tracing := before }
  | .error e m => .error e { m with tracing := before }

/-- Runs a program, given how functions are applied. -/
def Program.run {α : Type} (w : World) (apply : Applier) : Program α → Run α
  | done a => pure a
  | fail e => throw e
  | perform x next => do
    let a ← x.perform w
    (next a).run w apply
  | eval scope e next => do
    let v ← evaluate apply scope e
    (next v).run w apply
  | call f args scope next => do
    let v ← apply f args scope
    (next v).run w apply
  | traced scope e next => do
    let v ← Lisp.traced (evaluate apply scope e)
    (next v).run w apply

/-- A program runs in two parts as in one. -/
theorem Program.run_bind {α β : Type} (w : World) (apply : Applier) (p : Program α)
    (f : α → Program β) :
    (p.bind f).run w apply = p.run w apply >>= fun a => (f a).run w apply := by
  induction p with
  | done _ => rfl
  | fail _ => rfl
  | _ => simp_all [bind, run]

namespace Function

/-- Evaluates a body in a new scope with the parameters bound to arguments. -/
def bodyProgram (name : String) (parameters : List String) (body : List Expr) (args : List Expr)
    (outer : ScopeId) : Program Expr :=
  match (Arity.exact parameters.length).fault? args.length with
  | some fault => .fail (.parameters name (.arity fault))
  | none => do
    let inner ← Program.enter outer (parameters.zip args)
    Program.evalBody inner body

/-- What a function does when it is called from a scope. -/
def program (w : World) (f : Function) (args : List Expr) (scope : ScopeId) : Program Expr :=
  match f.code with
  | .builtin op =>
    match op.body.supply ⟨op.name, scope⟩ args with
    | .ok p => p
    | .error fault => .fail (.parameters op.name (.arity fault))
  | .registered name entry =>
    match w.registered[entry]? with
    | some r =>
      match r.arity.fault? args.length with
      | some fault => .fail (.parameters name (.arity fault))
      | none => r.run ⟨name, scope⟩ args
    | none => .fail (.runtime (.undefinedFunction name))
  | .named name parameters body => bodyProgram name parameters body args scope
  | .lambda parameters body => bodyProgram f.name parameters body args scope
  | .closure parameters body captured => bodyProgram f.name parameters body args captured

end Function

/-- Runs the body of a call between the beginning and the end of the call. -/
def framed (name : String) (args : List Expr) (body : Run Expr) : Run Expr := fun m =>
  let before := m.tracing
  let depth := m.depth
  match body (m.enterCall name args) with
  | .ok v m => .ok v (m.leaveCall before depth (.ok v))
  | .error e m => .error e (m.leaveCall before depth (.error e))

/-- Applies a function while a given number of calls may still be nested. -/
def applyWithin (w : World) : Nat → Applier
  | 0 => fun _ _ _ => throw (.stackOverflow w.maxDepth)
  | n + 1 => fun f args scope =>
    framed f.name args ((f.program w args scope).run w (applyWithin w n))

namespace World

/-- Applies a function at the present depth of calls. -/
def apply (w : World) : Applier := fun f args scope m =>
  applyWithin w (w.maxDepth - m.depth) f args scope m

/-- Evaluates an expression at the present depth of calls. -/
def eval (w : World) (scope : ScopeId) (e : Expr) : Run Expr := fun m =>
  evaluate (applyWithin w (w.maxDepth - m.depth)) scope e m

/-- Runs a program at the present depth of calls. -/
def run {α : Type} (w : World) (p : Program α) : Run α := fun m =>
  p.run w (applyWithin w (w.maxDepth - m.depth)) m

end World

end Lisp
