import Lisp.Evaluation
import Mathlib.Logic.Relation

/-!
# Evaluation step by step

Evaluation as a machine that takes one step after another. A configuration is a
task, what waits for its result, and the state of the run. A step evaluates a
symbol or a literal, begins a call, evaluates an argument, applies a function,
or does one request of a program; it looks at the depth of nested calls where it
applies a function, and nowhere counts how many steps are left.

Nothing in this description bounds the number of steps. That they end is proved
where they are compared with evaluation by recursion.
-/

namespace Lisp

/-- What an evaluation does next. The last two have nothing left to do. -/
inductive Task where
  | eval (scope : ScopeId) (e : Expr)
  | arguments (f : Function) (scope : ScopeId) (values : List Expr) (rest : Expr)
  | apply (f : Function) (args : List Expr) (scope : ScopeId)
  | run (p : Program Expr)
  | value (v : Expr)
  | error (e : Error)

/-- What waits for a result: the head of a call, an argument, the rest of a
program, the setting of the call trace, and the end of a call. -/
inductive Pending where
  | head (scope : ScopeId) (call args : Expr)
  | argument (f : Function) (scope : ScopeId) (values : List Expr) (rest : Expr)
  | next (next : Expr → Program Expr)
  | tracing (before : Bool)
  | leave (tracing : Bool) (depth : Nat)

/-- An evaluation in progress. -/
structure Config where
  task : Task
  pending : List Pending
  machine : Machine

/-- What follows when the function of a call has been found. -/
def Task.called (scope : ScopeId) (call args : Expr) (f : Function) : Task :=
  match args.properItems? with
  | none => .error (.runtime (.improperArguments call.text))
  | some items => if f.isSpecial then .apply f items scope else .arguments f scope [] args

/-- The function at the head of a call, if the head is not itself a call. -/
def headFunction (scope : ScopeId) : Expr → Run Function
  | .symbol name => functionNamed scope name
  | e => functionOfValue e

theorem callee_of_isAtom {head : Expr} (atom : head.isPair = false) (scope : ScopeId)
    (evaluated : Run Expr) : callee scope head evaluated = headFunction scope head := by
  cases head with
  | pair id mark car cdr => simp [Sexp.isPair] at atom
  | _ => rfl

namespace Config

/-- Goes on with what a computation returns, or with its error. -/
def after {α : Type} (pending : List Pending) (r : EStateM.Result Error Machine α)
    (task : α → Task) : Config :=
  match r with
  | .ok a m => ⟨task a, pending, m⟩
  | .error e m => ⟨.error e, pending, m⟩

/-- The first step of the evaluation of an expression. -/
def stepEval (scope : ScopeId) (e : Expr) (ps : List Pending) (m : Machine) : Config :=
  match e with
  | .symbol name =>
    let m := m.countEvaluation.countLookup
    match m.store.value? scope name with
    | some v => ⟨.value v, ps, m⟩
    | none => ⟨.error (.symbolNotFound name), ps, m⟩
  | .pair id mark head args =>
    let call := Sexp.pair id mark head args
    let m := m.countEvaluation
    match head with
    | .pair .. => ⟨.eval scope head, .head scope call args :: ps, m⟩
    | _ => after ps (headFunction scope head m) (Task.called scope call args)
  | e => ⟨.value e, ps, m.countEvaluation.countLiteral⟩

theorem stepEval_of_isAtom {head : Expr} (atom : head.isPair = false) (scope : ScopeId)
    (id : ObjectId) (mark : Option Mark) (args : Expr) (ps : List Pending) (m : Machine) :
    stepEval scope (.pair id mark head args) ps m =
      after ps (headFunction scope head m.countEvaluation)
        (Task.called scope (.pair id mark head args) args) := by
  cases head with
  | pair id mark car cdr => simp [Sexp.isPair] at atom
  | _ => rfl

/-- One request of a program, or its end. -/
def stepRun (w : World) (p : Program Expr) (ps : List Pending) (m : Machine) : Config :=
  match p with
  | .done v => ⟨.value v, ps, m⟩
  | .fail e => ⟨.error e, ps, m⟩
  | .perform x next => after ps (x.perform w m) fun a => .run (next a)
  | .eval scope e next => ⟨.eval scope e, .next next :: ps, m⟩
  | .call f args scope next => ⟨.apply f args scope, .next next :: ps, m⟩
  | .traced scope e next =>
    ⟨.eval scope e, .tracing m.tracing :: .next next :: ps, { m with tracing := true }⟩

/-- A value goes to what waits for it. -/
def stepValue (v : Expr) (p : Pending) (ps : List Pending) (m : Machine) : Config :=
  match p with
  | .head scope call args => after ps (functionOfValue v m) (Task.called scope call args)
  | .argument f scope values rest => ⟨.arguments f scope (v :: values) rest, ps, m⟩
  | .next next => ⟨.run (next v), ps, m⟩
  | .tracing before => ⟨.value v, ps, { m with tracing := before }⟩
  | .leave tracing depth => ⟨.value v, ps, m.leaveCall tracing depth (.ok v)⟩

/-- An error passes by everything that waits, but calls end and the setting of
the call trace is restored. -/
def stepError (e : Error) (p : Pending) (ps : List Pending) (m : Machine) : Config :=
  match p with
  | .tracing before => ⟨.error e, ps, { m with tracing := before }⟩
  | .leave tracing depth => ⟨.error e, ps, m.leaveCall tracing depth (.error e)⟩
  | _ => ⟨.error e, ps, m⟩

/-- One step, unless the evaluation is over. -/
def step (w : World) : Config → Option Config
  | ⟨.eval scope e, ps, m⟩ => some (stepEval scope e ps m)
  | ⟨.arguments f scope values (.pair _ _ e rest), ps, m⟩ =>
    some ⟨.eval scope e, .argument f scope values rest :: ps, m⟩
  | ⟨.arguments f scope values _, ps, m⟩ => some ⟨.apply f values.reverse scope, ps, m⟩
  | ⟨.apply f args scope, ps, m⟩ =>
    some <|
      if w.maxDepth ≤ m.depth then ⟨.error (.stackOverflow w.maxDepth), ps, m⟩
      else
        ⟨.run (f.program w args scope), .leave m.tracing m.depth :: ps,
          m.enterCall f.name args⟩
  | ⟨.run p, ps, m⟩ => some (stepRun w p ps m)
  | ⟨.value v, p :: ps, m⟩ => some (stepValue v p ps m)
  | ⟨.error e, p :: ps, m⟩ => some (stepError e p ps m)
  | ⟨.value _, [], _⟩ => none
  | ⟨.error _, [], _⟩ => none

/-- Finitely many steps lead from one configuration to another. -/
abbrev Reaches (w : World) : Config → Config → Prop :=
  Relation.ReflTransGen fun c d => c.step w = some d

/-- A configuration from which no step leads on is reached in finitely many steps
only if there is no infinite run. -/
theorem Reaches.no_infinite_run {w : World} {c d : Config} (h : Reaches w c d)
    (halted : d.step w = none) (run : Nat → Config) (begins : run 0 = c) :
    ∃ k, (run k).step w ≠ some (run (k + 1)) := by
  induction h using Relation.ReflTransGen.head_induction_on generalizing run with
  | refl =>
    refine ⟨0, ?_⟩
    rw [begins, halted]
    simp
  | @head c next first _ ih =>
    by_cases second : run 1 = next
    · obtain ⟨k, stops⟩ := ih (fun i => run (i + 1)) second
      exact ⟨k + 1, stops⟩
    · refine ⟨0, ?_⟩
      rw [begins, first]
      exact fun same => second (Option.some.inj same).symm

theorem step_after (w : World) (r : EStateM.Result Error Machine Expr) :
    (after [] r .value).step w = none := by
  cases r <;> rfl

end Config

end Lisp
