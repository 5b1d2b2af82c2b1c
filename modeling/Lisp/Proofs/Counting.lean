import Lisp.Proofs.CallDepth
import Mathlib.Algebra.GroupWithZero.Nat

/-!
# What an evaluation counts

Each count belongs to one kind of step. The step that begins the evaluation of an
expression counts the evaluation, and with it the lookup of a symbol or of the function
that a symbol names, or the literal. The step that begins a call counts the call. Nothing
else counts, and an error on the way takes nothing back.

So the evaluations that are neither lookups nor literals are those of the calls whose head
is no symbol. Such a call owes an application from its first step on. An evaluation that
returns a value has waited for all of them, so that no more of these calls were evaluated
than functions were called. An error leaves some of them unpaid.
-/

namespace Lisp

open Config

attribute [ext] Counters

namespace Counters

instance : Zero Counters := ⟨{}⟩

/-- Counts put together. -/
instance : Add Counters where
  add c d :=
    { evaluations := c.evaluations + d.evaluations
      symbolLookups := c.symbolLookups + d.symbolLookups
      functionCalls := c.functionCalls + d.functionCalls
      literals := c.literals + d.literals }

instance : AddMonoid Counters where
  zero_add _ := Counters.ext (Nat.zero_add _) (Nat.zero_add _) (Nat.zero_add _) (Nat.zero_add _)
  add_zero _ := rfl
  add_assoc _ _ _ :=
    Counters.ext (Nat.add_assoc _ _ _) (Nat.add_assoc _ _ _) (Nat.add_assoc _ _ _)
      (Nat.add_assoc _ _ _)
  nsmul := nsmulRec

variable (c d : Counters)

@[simp] theorem evaluations_add : (c + d).evaluations = c.evaluations + d.evaluations := rfl

@[simp] theorem symbolLookups_add : (c + d).symbolLookups = c.symbolLookups + d.symbolLookups :=
  rfl

@[simp] theorem functionCalls_add : (c + d).functionCalls = c.functionCalls + d.functionCalls :=
  rfl

@[simp] theorem literals_add : (c + d).literals = c.literals + d.literals := rfl

end Counters

/-- A call whose head is not a symbol. -/
@[simp] def Sexp.isComputedCall {κ φ : Type} : Sexp κ φ → Bool
  | .pair _ _ (.symbol _) _ => false
  | .pair _ _ _ _ => true
  | _ => false

/-- What beginning to evaluate an expression counts. -/
@[simp] def Sexp.counted {κ φ : Type} : Sexp κ φ → Counters
  | .symbol _ => { evaluations := 1, symbolLookups := 1 }
  | .pair _ _ (.symbol _) _ => { evaluations := 1, symbolLookups := 1 }
  | .pair _ _ _ _ => { evaluations := 1 }
  | _ => { evaluations := 1, literals := 1 }

/-- Every evaluation is that of a call without a symbol at its head, or a lookup or a
literal besides. -/
theorem Sexp.evaluations_counted {κ φ : Type} (e : Sexp κ φ) :
    e.counted.evaluations =
      e.counted.symbolLookups + e.counted.literals + if e.isComputedCall then 1 else 0 := by
  cases e with
  | pair id mark head args => cases head <;> rfl
  | _ => rfl

namespace Config

/-- Whether a configuration begins to evaluate a call whose head is not a symbol. -/
@[simp] def beginsComputedCall (c : Config) : Bool :=
  match c.task with
  | .eval _ e => e.isComputedCall
  | _ => false

/-- What the step from a configuration counts. -/
@[simp] def counted (w : World) (c : Config) : Counters :=
  match c.task with
  | .eval _ e => e.counted
  | .apply _ _ _ => if w.maxDepth ≤ c.machine.depth then 0 else { functionCalls := 1 }
  | _ => 0

/-- The steps from one configuration to another, given by the configurations that they
start from. -/
inductive Passes (w : World) : Config → List Config → Config → Prop where
  | refl (c : Config) : Passes w c [] c
  | head {c next d : Config} {cs : List Config} (first : c.step w = some next)
      (rest : Passes w next cs d) : Passes w c (c :: cs) d

theorem Reaches.exists_passes {w : World} {c d : Config} (h : Reaches w c d) :
    ∃ cs, Passes w c cs d := by
  induction h using Relation.ReflTransGen.head_induction_on with
  | refl => exact ⟨[], .refl d⟩
  | head first _ ih =>
    obtain ⟨cs, rest⟩ := ih
    exact ⟨_ :: cs, .head first rest⟩

end Config

/-- Calls whose function has been asked for and not yet been applied. -/
@[simp] def Task.owed : Task → Nat
  | .arguments _ _ _ _ => 1
  | .apply _ _ _ => 1
  | _ => 0

@[simp] def Pending.owed : Pending → Nat
  | .head _ _ _ => 1
  | .argument _ _ _ _ => 1
  | _ => 0

def Config.owed (c : Config) : Nat := (c.pending.map Pending.owed).sum + c.task.owed

/-- A computation that counts the same from every machine. -/
def Counts {α : Type} (spent : Counters) (run : Run α) : Prop :=
  ∀ m, (finalMachine (run m)).counters = m.counters + spent

theorem counts_update (id : ScopeId) (name : String) (f : Binding → Binding) :
    Counts 0 (Machine.update id name f) := by
  intro m
  unfold Machine.update
  split <;> rfl

/-- No request counts, not even the one for the counts themselves. -/
theorem counts_perform (w : World) (x : Effect) : Counts 0 (x.perform w) := by
  intro m
  cases x with
  | assign scope name v => exact counts_update _ _ _ m
  | defineGlobal name v => exact counts_update _ _ _ m
  | defineConstant name v => exact counts_update _ _ _ m
  | defineFunction name f => exact counts_update _ _ _ m
  | file path =>
    simp only [Effect.perform]
    split <;> rfl
  | _ => rfl

theorem counts_functionOfValue (v : Expr) : Counts 0 (functionOfValue v) := by
  intro m
  cases v <;> rfl

/-- A lookup is counted whether or not it finds a function. -/
theorem counts_functionNamed (scope : ScopeId) (name : String) :
    Counts { symbolLookups := 1 } (functionNamed scope name) := by
  intro m
  rw [functionNamed, modify_bind, get_bind]
  cases m.countLookup.store.function? scope name with
  | none => rfl
  | some v => cases v <;> rfl

theorem counters_enterCall (m : Machine) (name : String) (args : List Expr) :
    (m.enterCall name args).counters = m.counters + { functionCalls := 1 } := by
  unfold Machine.enterCall Machine.record
  dsimp only
  split <;> rfl

theorem counters_leaveCall (m : Machine) (traced : Bool) (depth : Nat) (r : Except Error Expr) :
    (m.leaveCall traced depth r).counters = m.counters := by
  unfold Machine.leaveCall Machine.record
  dsimp only
  split <;> rfl

/-- What a step does to the counts and to the applications that are owed. A step into an
error owes nothing any more. -/
structure Accounts (w : World) (c d : Config) : Prop where
  counters : d.machine.counters = c.machine.counters + c.counted w
  owed : (∀ e, d.task ≠ .error e) →
    c.owed + (if c.beginsComputedCall then 1 else 0) ≤ d.owed + (c.counted w).functionCalls

namespace Accounts

variable {w : World} {ps : List Pending} {m : Machine}

/-- When the function of a call has been found, the call waits for its arguments or is
applied, unless its arguments are no list. -/
theorem owed_called (scope : ScopeId) (call args : Expr) (f : Function)
    (goesOn : ∀ e, Task.called scope call args f ≠ .error e) :
    (Task.called scope call args f).owed = 1 := by
  unfold Task.called at goesOn ⊢
  cases proper : args.properItems? with
  | none =>
    rw [proper] at goesOn
    exact absurd rfl (goesOn _)
  | some items =>
    dsimp only
    split <;> rfl

/-- What follows a computation that takes the place of the first task. -/
theorem after {α : Type} {c : Config} {spent : Counters} {run : Run α} (counts : Counts spent run)
    (before : m.counters + spent = c.machine.counters + c.counted w) (task : α → Task)
    (covered : ∀ a, (∀ e, task a ≠ .error e) →
      c.owed + (if c.beginsComputedCall then 1 else 0) ≤
        (ps.map Pending.owed).sum + (task a).owed + (c.counted w).functionCalls) :
    Accounts w c (Config.after ps (run m) task) := by
  have counted : (finalMachine (run m)).counters = c.machine.counters + c.counted w :=
    (counts m).trans before
  cases result : run m with
  | ok a m' =>
    rw [result] at counted
    exact ⟨counted, covered a⟩
  | error e m' =>
    rw [result] at counted
    exact ⟨counted, fun goesOn => absurd rfl (goesOn e)⟩

theorem stepEval (scope : ScopeId) (e : Expr) :
    Accounts w ⟨.eval scope e, ps, m⟩ (Config.stepEval scope e ps m) := by
  cases e with
  | symbol name =>
    unfold Config.stepEval
    dsimp only
    split <;> exact ⟨rfl, fun _ => Nat.le_refl _⟩
  | pair id mark head args =>
    have called := owed_called scope (.pair id mark head args) args
    have counted : ∀ spent : Counters, m.countEvaluation.counters + spent =
        m.counters + { spent with evaluations := 1 + spent.evaluations } := by
      intro spent
      exact Counters.ext (Nat.add_assoc _ _ _) rfl rfl rfl
    have value := counts_functionOfValue head
    cases head with
    | pair id' mark' car cdr =>
      refine ⟨rfl, fun _ => Nat.le_of_eq ?_⟩
      simp [Config.owed, Config.stepEval, Nat.add_comm]
    | symbol name =>
      rw [Config.stepEval_of_isAtom rfl]
      refine after (counts_functionNamed scope name) (counted _) _ fun f goesOn => ?_
      rw [called f goesOn]
      exact Nat.le_succ _
    | _ =>
      rw [Config.stepEval_of_isAtom rfl]
      refine after value (counted 0) _ fun f goesOn => ?_
      rw [called f goesOn]
      exact Nat.le_refl _
  | _ => exact ⟨rfl, fun _ => Nat.le_refl _⟩

theorem stepRun (p : Program Expr) : Accounts w ⟨.run p, ps, m⟩ (Config.stepRun w p ps m) := by
  cases p with
  | perform x next =>
    exact after (counts_perform w x) rfl _ fun a _ => Nat.le_refl _
  | call f args scope next =>
    exact ⟨rfl, fun _ => by simp [Config.owed, Config.stepRun, Nat.add_assoc]⟩
  | _ => exact ⟨rfl, fun _ => by simp [Config.owed, Config.stepRun]⟩

theorem stepValue (v : Expr) (p : Pending) :
    Accounts w ⟨.value v, p :: ps, m⟩ (Config.stepValue v p ps m) := by
  cases p with
  | head scope call args =>
    refine after (counts_functionOfValue v) rfl _ fun f goesOn => ?_
    rw [owed_called scope call args f goesOn]
    simp [Config.owed, Nat.add_comm]
  | leave traced depth =>
    exact ⟨counters_leaveCall m traced depth (.ok v),
      fun _ => by simp [Config.owed, Config.stepValue]⟩
  | _ => exact ⟨rfl, fun _ => by simp [Config.owed, Config.stepValue, Nat.add_comm]⟩

theorem stepError (e : Error) (p : Pending) :
    Accounts w ⟨.error e, p :: ps, m⟩ (Config.stepError e p ps m) := by
  cases p with
  | leave traced depth =>
    exact ⟨counters_leaveCall m traced depth (.error e), fun goesOn => absurd rfl (goesOn e)⟩
  | _ => exact ⟨rfl, fun goesOn => absurd rfl (goesOn e)⟩

end Accounts

/-- Every step counts what its configuration says, and pays or keeps what was owed. -/
theorem Config.accounts {w : World} {c d : Config} (next : c.step w = some d) :
    Accounts w c d := by
  obtain ⟨task, ps, m⟩ := c
  cases task with
  | eval scope e =>
    cases next
    exact .stepEval scope e
  | arguments f scope values rest =>
    cases rest <;> cases next <;> exact ⟨rfl, fun _ => by simp [Config.owed, Nat.add_comm]⟩
  | apply f args scope =>
    by_cases full : w.maxDepth ≤ m.depth
    · simp only [Config.step, full, if_true, Option.some.injEq] at next
      subst next
      exact ⟨by simp [full], fun goesOn => absurd rfl (goesOn _)⟩
    · simp only [Config.step, full, if_false, Option.some.injEq] at next
      subst next
      exact ⟨by simp [full, counters_enterCall], fun _ => by simp [Config.owed, full]⟩
  | run p =>
    cases next
    exact .stepRun p
  | value v =>
    cases ps with
    | nil => cases next
    | cons p ps =>
      cases next
      exact .stepValue v p
  | error e =>
    cases ps with
    | nil => cases next
    | cons p ps =>
      cases next
      exact .stepError e p

namespace Config.Passes

variable {w : World} {c d : Config} {cs : List Config}

/-- What a run counts is what its steps count. -/
theorem counters (h : Passes w c cs d) :
    d.machine.counters = c.machine.counters + (cs.map (counted w)).sum := by
  induction h with
  | refl c => exact (add_zero _).symm
  | head first rest ih =>
    rw [ih, (accounts first).counters, List.map_cons, List.sum_cons, add_assoc]

/-- An error is never left behind. -/
theorem task_of_error (h : Passes w c cs d) {e : Error} (failed : c.task = .error e) :
    d.task = .error e := by
  induction h with
  | refl c => exact failed
  | head first rest ih => exact ih (Config.task_of_error failed first)

/-- A run that does not end in an error pays for what it owes. -/
theorem owed (h : Passes w c cs d) (goesOn : ∀ e, d.task ≠ .error e) :
    c.owed + cs.countP beginsComputedCall ≤ d.owed + (cs.map (counted w)).sum.functionCalls := by
  induction h with
  | refl c => exact Nat.le_refl _
  | @head c next d cs first rest ih =>
    have later := ih goesOn
    have here := (accounts first).owed fun e failed => goesOn e (rest.task_of_error failed)
    rw [List.countP_cons, List.map_cons, List.sum_cons, Counters.functionCalls_add]
    omega

end Config.Passes

/-- Every evaluation is that of a call whose head is not a symbol, or counts as a lookup or
a literal besides. -/
theorem Config.evaluations_counted (w : World) (c : Config) :
    (c.counted w).evaluations =
      (c.counted w).symbolLookups + (c.counted w).literals +
        if c.beginsComputedCall then 1 else 0 := by
  obtain ⟨task, ps, m⟩ := c
  cases task with
  | eval scope e => exact e.evaluations_counted
  | apply f args scope =>
    simp only [counted]
    split <;> rfl
  | _ => rfl

theorem Config.evaluations_sum_counted (w : World) (cs : List Config) :
    let spent := (cs.map (counted w)).sum
    spent.evaluations =
      spent.symbolLookups + spent.literals + cs.countP beginsComputedCall := by
  induction cs with
  | nil => rfl
  | cons c cs ih =>
    have here := c.evaluations_counted w
    simp only [List.map_cons, List.sum_cons, Counters.evaluations_add,
      Counters.symbolLookups_add, Counters.literals_add, List.countP_cons] at ih ⊢
    omega

/-- Every evaluation, from every machine, accounts for what it counts. Among its steps are as
many that begin to evaluate a call whose head is not a symbol as there are evaluations beyond
the lookups and the literals, whether or not it fails. If it returns a value then the lookups,
the literals and the function calls cover all evaluations. -/
theorem World.eval_accounts (w : World) (scope : ScopeId) (e : Expr) (m : Machine) :
    ∃ cs spent, Passes w ⟨.eval scope e, [], m⟩ cs (after [] (w.eval scope e m) .value) ∧
      (after [] (w.eval scope e m) .value).step w = none ∧
      (finalMachine (w.eval scope e m)).counters = m.counters + spent ∧
      spent.evaluations =
        spent.symbolLookups + spent.literals + cs.countP beginsComputedCall ∧
      ((∃ v m', w.eval scope e m = .ok v m') →
        spent.evaluations ≤ spent.literals + spent.symbolLookups + spent.functionCalls) := by
  obtain ⟨cs, passes⟩ := (w.eval_terminates scope e m).1.exists_passes
  have grown := passes.counters
  have evaluations := evaluations_sum_counted w cs
  refine ⟨cs, _, passes, step_after w _, ?_, evaluations, ?_⟩
  · cases result : w.eval scope e m <;> simpa [result, after, finalMachine] using grown
  · rintro ⟨v, m', returned⟩
    rw [returned] at passes
    have paid : cs.countP beginsComputedCall ≤ (cs.map (counted w)).sum.functionCalls := by
      simpa [Config.owed, after] using passes.owed fun e => Task.noConfusion
    dsimp only at evaluations
    omega

/-- The call `(funcall list 1)` evaluates itself, a function and a number, and makes two
calls, so that one of them has paid for the head that is not a symbol. -/
theorem nestedCall_accounts :
    let r := (World.limitedTo {} 2).eval Store.root nestedCall Machine.bare
    (∃ v m', r = .ok v m') ∧ (finalMachine r).counters = ⟨3, 0, 2, 2⟩ ∧
      ∃ cs, Passes (World.limitedTo {} 2) ⟨.eval Store.root nestedCall, [], Machine.bare⟩ cs
          (after [] r .value) ∧ cs.countP beginsComputedCall = 1 ∧ 3 ≤ 2 + 0 + 2 := by
  intro r
  have returned : ∃ v m', r = .ok v m' := ⟨_, _, rfl⟩
  have counted : (finalMachine r).counters = ⟨3, 0, 2, 2⟩ := rfl
  obtain ⟨cs, spent, passes, -, grown, evaluations, covered⟩ :=
    World.eval_accounts (World.limitedTo {} 2) Store.root nestedCall Machine.bare
  obtain rfl : spent = ⟨3, 0, 2, 2⟩ := by
    rw [← zero_add spent]
    exact grown.symm.trans counted
  have once : 3 = 0 + 2 + cs.countP beginsComputedCall := evaluations
  exact ⟨returned, counted, cs, passes, by omega, covered returned⟩

end Lisp
