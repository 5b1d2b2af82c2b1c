import Lisp.Proofs.Termination

/-!
# How evaluations are composed

An evaluation is put together from few things: results and errors, sequencing,
counting, looking at the store, requests, expressions evaluated with call tracing
switched on, and calls. A property of computations that goes through each of these
holds of every evaluation and of every application, whatever functions are called.

The property may speak of the number of calls that may still be nested. A call takes
one of them for its body.
-/

namespace Lisp

/-- A property of computations, on machines where `n` more calls may be nested, that
goes through everything that evaluations are composed of. -/
structure Compositional (w : World) (holds : Nat → {α : Type} → Run α → Prop) : Prop where
  pure : ∀ {n : Nat} {α : Type} (a : α), holds n (Pure.pure a : Run α)
  throw : ∀ {n : Nat} {α : Type} (e : Error), holds n (MonadExcept.throw e : Run α)
  bind : ∀ {n : Nat} {α β : Type} {run : Run α} {next : α → Run β}, holds n run →
    (∀ a, holds n (next a)) → holds n (run >>= next)
  count : ∀ {n : Nat} (change : Counters → Counters),
    holds n (modify fun m => { m with counters := change m.counters } : Run PUnit)
  read : ∀ {n : Nat} {α : Type} {run : Machine → Run α}, (∀ m, holds n (run m)) →
    (∀ m m' : Machine, m.store = m'.store → run m = run m') → holds n (get >>= run)
  perform : ∀ {n : Nat} (x : Effect), holds n (x.perform w)
  traced : ∀ {n : Nat} {run : Run Expr}, holds n run → holds n (Lisp.traced run)
  framed : ∀ {n : Nat} {run : Run Expr} (name : String) (args : List Expr), holds n run →
    holds (n + 1) (Lisp.framed name args run)

namespace Compositional

variable {w : World} {holds : Nat → {α : Type} → Run α → Prop} {n : Nat} {apply : Applier}

theorem countEvaluation (h : Compositional w holds) :
    holds n (modify Machine.countEvaluation : Run PUnit) :=
  h.count fun c => { c with evaluations := c.evaluations + 1 }

theorem countLookup (h : Compositional w holds) :
    holds n (modify Machine.countLookup : Run PUnit) :=
  h.count fun c => { c with symbolLookups := c.symbolLookups + 1 }

theorem countLiteral (h : Compositional w holds) :
    holds n (modify Machine.countLiteral : Run PUnit) :=
  h.count fun c => { c with literals := c.literals + 1 }

theorem functionOfValue (h : Compositional w holds) (v : Expr) :
    holds n (Lisp.functionOfValue v) := by
  cases v with
  | function f => exact h.pure f
  | _ => exact h.throw _

theorem functionNamed (h : Compositional w holds) (scope : ScopeId) (name : String) :
    holds n (Lisp.functionNamed scope name) := by
  refine h.bind h.countLookup fun _ => h.read (fun m => ?_) fun m m' same => by rw [same]
  split
  · exact h.pure _
  · exact h.throw _
  · exact h.throw _

theorem callee (h : Compositional w holds) (scope : ScopeId) (head : Expr)
    {evaluated : Run Expr} (headHolds : holds n evaluated) :
    holds n (Lisp.callee scope head evaluated) := by
  have value := h.functionOfValue (n := n) head
  cases head with
  | symbol name => exact h.functionNamed scope name
  | pair id mark car cdr => exact h.bind headHolds h.functionOfValue
  | _ => exact value

/-- The values of symbols. -/
theorem symbol (h : Compositional w holds) (scope : ScopeId) (name : String) :
    holds n (evaluate apply scope (.symbol name)) := by
  rw [evaluate]
  refine h.bind h.countEvaluation fun _ => h.bind h.countLookup fun _ => ?_
  refine h.read (fun m => ?_) fun m m' same => by rw [same]
  split
  · exact h.pure _
  · exact h.throw _

/-- What holds of applications holds of evaluations. -/
theorem evaluate (h : Compositional w holds)
    (applied : ∀ f args scope, holds n (apply f args scope)) (scope : ScopeId) (e : Expr) :
    holds n (Lisp.evaluate apply scope e) ∧ holds n (evaluateItems apply scope e) := by
  have literal : ∀ v : Expr, holds n (do
      modify Machine.countEvaluation
      modify Machine.countLiteral
      return v : Run Expr) :=
    fun v => h.bind h.countEvaluation fun _ => h.bind h.countLiteral fun _ => h.pure v
  induction e with
  | symbol name =>
    refine ⟨h.symbol scope name, ?_⟩
    rw [evaluateItems]
    · exact h.pure []
    · simp
  | pair id mark head args ihHead ihArgs =>
    constructor
    · rw [Lisp.evaluate]
      refine h.bind h.countEvaluation fun _ => h.bind (h.callee scope head ihHead.1) fun f => ?_
      cases args.properItems? with
      | none => exact h.throw _
      | some items =>
        cases f.isSpecial with
        | true => exact applied f items scope
        | false => exact h.bind ihArgs.2 fun values => applied f values scope
    · rw [evaluateItems]
      exact h.bind ihHead.1 fun v => h.bind ihArgs.2 fun vs => h.pure _
  | _ =>
    refine ⟨literal _, ?_⟩
    rw [evaluateItems]
    · exact h.pure []
    · simp

/-- What holds of applications holds of programs. -/
theorem run (h : Compositional w holds) (applied : ∀ f args scope, holds n (apply f args scope))
    {α : Type} (p : Program α) : holds n (p.run w apply) := by
  induction p with
  | done a => exact h.pure a
  | fail e => exact h.throw e
  | perform x next ih => exact h.bind (h.perform x) ih
  | eval scope e next ih => exact h.bind (h.evaluate applied scope e).1 ih
  | call f args scope next ih => exact h.bind (applied f args scope) ih
  | traced scope e next ih => exact h.bind (h.traced (h.evaluate applied scope e).1) ih

theorem applyWithin (h : Compositional w holds) (n : Nat) (f : Function) (args : List Expr)
    (scope : ScopeId) : holds n (Lisp.applyWithin w n f args scope) := by
  induction n generalizing f args scope with
  | zero => exact h.throw _
  | succ n ih => exact h.framed f.name args (h.run ih (f.program w args scope))

/-- Such a property holds of every evaluation, at every depth of calls. -/
theorem eval (h : Compositional w holds) (n : Nat) (scope : ScopeId) (e : Expr) :
    holds n (Lisp.evaluate (Lisp.applyWithin w n) scope e) :=
  (h.evaluate (h.applyWithin n) scope e).1

end Compositional

end Lisp
