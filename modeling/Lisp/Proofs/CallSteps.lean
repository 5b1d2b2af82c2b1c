import Lisp.Proofs.CallTrace

/-!
# What a step does to the calls

A step of an evaluation begins a call, refuses to begin one, ends one, or leaves the
depth of calls and what has been recorded of them as they are. What holds of the calls
during a run follows from these four cases.
-/

namespace Lisp

/-- The ways in which a step may change the depth of calls and the call trace. -/
inductive CallStep (w : World) : Config → Config → Prop where
  | begun {f : Function} {args : List Expr} {scope : ScopeId} {ps : List Pending} {m : Machine}
      (room : m.depth < w.maxDepth) :
      CallStep w ⟨.apply f args scope, ps, m⟩
        ⟨.run (f.program w args scope), .leave m.tracing m.depth :: ps, m.enterCall f.name args⟩
  | refused {f : Function} {args : List Expr} {scope : ScopeId} {ps : List Pending} {m : Machine}
      (full : w.maxDepth ≤ m.depth) :
      CallStep w ⟨.apply f args scope, ps, m⟩ ⟨.error (.stackOverflow w.maxDepth), ps, m⟩
  | ended {c d : Config} (traced : Bool) (depth : Nat) (r : Except Error Expr)
      (left : d.machine = c.machine.leaveCall traced depth r) : CallStep w c d
  | other {c d : Config} (depth : d.machine.depth = c.machine.depth)
      (trace : d.machine.trace = c.machine.trace) : CallStep w c d

theorem quiet_functionOfValue (v : Expr) : Quiet (functionOfValue v) := by
  intro m
  cases v <;> exact ⟨rfl, False.elim⟩

theorem quiet_headFunction (scope : ScopeId) (head : Expr) : Quiet (headFunction scope head) := by
  intro m
  have value := quiet_functionOfValue head m
  cases head with
  | symbol name =>
    rw [headFunction, functionNamed, modify_bind, get_bind]
    cases m.countLookup.store.function? scope name with
    | none => exact ⟨rfl, False.elim⟩
    | some v => cases v <;> exact ⟨rfl, False.elim⟩
  | _ => exact value

namespace CallStep

variable {w : World}

/-- What follows a computation that makes no calls. -/
theorem after {α : Type} {c : Config} {run : Run α} {m : Machine} (quiet : Quiet run)
    (same : m.calls = c.machine.calls) (ps : List Pending) (task : α → Task) :
    CallStep w c (Config.after ps (run m) task) := by
  have kept : (finalMachine (run m)).calls = c.machine.calls := (quiet m).1.trans same
  simp only [Machine.calls, Prod.mk.injEq] at kept
  obtain ⟨depth, _, trace⟩ := kept
  cases result : run m with
  | ok a m' =>
    rw [result] at depth trace
    exact .other depth trace
  | error e m' =>
    rw [result] at depth trace
    exact .other depth trace

variable {ps : List Pending} {m : Machine}

theorem stepEval (scope : ScopeId) (e : Expr) :
    CallStep w ⟨.eval scope e, ps, m⟩ (Config.stepEval scope e ps m) := by
  cases e with
  | symbol name =>
    unfold Config.stepEval
    dsimp only
    split <;> exact .other rfl rfl
  | pair id mark head args =>
    cases atom : head.isPair with
    | true =>
      cases head with
      | pair id' mark' car cdr => exact .other rfl rfl
      | _ => cases atom
    | false =>
      rw [Config.stepEval_of_isAtom atom]
      exact after (m := m.countEvaluation) (quiet_headFunction scope head) rfl ps _
  | _ => exact .other rfl rfl

theorem stepRun (p : Program Expr) : CallStep w ⟨.run p, ps, m⟩ (Config.stepRun w p ps m) := by
  cases p with
  | perform x next => exact after (quiet_perform w x) rfl ps _
  | _ => exact .other rfl rfl

theorem stepValue (v : Expr) (p : Pending) :
    CallStep w ⟨.value v, p :: ps, m⟩ (Config.stepValue v p ps m) := by
  cases p with
  | head scope call args => exact after (quiet_functionOfValue v) rfl ps _
  | leave traced depth => exact .ended traced depth (.ok v) rfl
  | _ => exact .other rfl rfl

theorem stepError (e : Error) (p : Pending) :
    CallStep w ⟨.error e, p :: ps, m⟩ (Config.stepError e p ps m) := by
  cases p with
  | leave traced depth => exact .ended traced depth (.error e) rfl
  | _ => exact .other rfl rfl

end CallStep

/-- Every step is of one of the four kinds. -/
theorem Config.callStep {w : World} {c d : Config} (next : c.step w = some d) :
    CallStep w c d := by
  obtain ⟨task, ps, m⟩ := c
  cases task with
  | eval scope e =>
    cases next
    exact .stepEval scope e
  | arguments f scope values rest => cases rest <;> cases next <;> exact .other rfl rfl
  | apply f args scope =>
    by_cases full : w.maxDepth ≤ m.depth
    · simp only [Config.step, full, if_true, Option.some.injEq] at next
      exact next ▸ .refused full
    · simp only [Config.step, full, if_false, Option.some.injEq] at next
      exact next ▸ .begun (Nat.lt_of_not_le full)
  | run p =>
    cases next
    exact .stepRun p
  | value v =>
    cases ps with
    | nil => cases next
    | cons p ps =>
      cases next
      exact .stepValue v p
  | error e =>
    cases ps with
    | nil => cases next
    | cons p ps =>
      cases next
      exact .stepError e p

/-- A run that goes on passes every configuration that is reached before its end. -/
theorem Config.Reaches.before_end {w : World} {c d e : Config} (first : Reaches w c d)
    (ends : Reaches w c e) (halted : e.step w = none) : Reaches w d e := by
  have unique : Relator.RightUnique fun c d => Config.step w c = some d :=
    fun _ _ _ one other => Option.some.inj (one.symm.trans other)
  rcases Relation.ReflTransGen.total_of_right_unique unique first ends with before | behind
  · exact before
  · rcases behind.cases_head with rfl | ⟨next, step, _⟩
    · exact .refl
    · rw [halted] at step
      cases step

end Lisp
