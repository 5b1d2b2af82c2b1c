import Lisp.Proofs.CallSteps
import Lisp.Proofs.LibraryRaising

/-!
# The depth of calls

An evaluation leaves the depth of calls as it found it, wherever it fails, and on its
way the depth never exceeds the limit.

Calls that are nested too deeply are reported where a call is refused at the limit, and
nowhere else. No builtin and no function of the program raises that error on its own,
and no request and no resolution of a function does; so as long as no call has been
refused, neither the task of an evaluation nor anything that waits for it leads to that
error. A refused call is not begun: the step goes straight to the error, on the same
machine.
-/

namespace Lisp

open Config

/-- Every error but that calls are nested too deeply. -/
def Error.Ordinary : Error → Prop
  | .stackOverflow _ => False
  | _ => True

theorem Site.Raises.ordinary {site : Site} {e : Error} (h : site.Raises e) : e.Ordinary := by
  cases e with
  | stackOverflow depth => exact h
  | _ => trivial

/-- A program that never tells on its own that calls are nested too deeply. -/
abbrev Program.Ordinary {α : Type} (p : Program α) : Prop := p.Raises Error.Ordinary

/-- No registered function tells on its own that calls are nested too deeply. -/
def World.Ordinary (w : World) : Prop :=
  ∀ r ∈ w.registered, ∀ site args, (r.run site args).Ordinary

theorem Function.ordinary_bodyProgram (name : String) (parameters : List String)
    (body args : List Expr) (outer : ScopeId) :
    (bodyProgram name parameters body args outer).Ordinary := by
  unfold bodyProgram
  split
  · trivial
  · exact fun inner => Program.raises_evalBody inner body

theorem Function.ordinary_program {w : World} (own : w.Ordinary) (f : Function)
    (args : List Expr) (scope : ScopeId) : (f.program w args scope).Ordinary := by
  unfold program
  split
  · rename_i op _
    split
    · rename_i p supplied
      exact (op.raises_body.supply supplied).imp (fun _ => Site.Raises.ordinary) fun _ _ => trivial
    · trivial
  · split
    · rename_i r found
      split
      · trivial
      · exact own r (Array.mem_of_getElem? found) _ args
    · trivial
  · exact ordinary_bodyProgram _ _ _ args scope
  · exact ordinary_bodyProgram _ _ _ args scope
  · exact ordinary_bodyProgram _ _ _ args _

/-- What is done next raises only ordinary errors of its own. -/
def Task.Ordinary : Task → Prop
  | .run p => p.Ordinary
  | .error e => e.Ordinary
  | _ => True

def Pending.Ordinary : Pending → Prop
  | .next rest => ∀ v, (rest v).Ordinary
  | _ => True

/-- A configuration from which only a refused call leads to an overflow. -/
structure Config.Ordinary (c : Config) : Prop where
  task : c.task.Ordinary
  pending : ∀ p ∈ c.pending, p.Ordinary

/-- A call is refused: at the limit, without being begun, and on the same machine. -/
structure Config.Refuses (w : World) (call next : Config) : Prop where
  apply : ∃ f args scope, call.task = .apply f args scope
  full : call.machine.depth = w.maxDepth
  step : call.step w = some next
  error : next.task = .error (.stackOverflow w.maxDepth)
  machine : next.machine = call.machine

theorem Task.ordinary_called (scope : ScopeId) (call args : Expr) (f : Function) :
    (called scope call args f).Ordinary := by
  unfold called
  split
  · trivial
  · split <;> trivial

namespace Config.Ordinary

variable {w : World} {ps : List Pending} {m : Machine}

theorem after {α : Type} {r : EStateM.Result Error Machine α} {task : α → Task}
    (answered : ¬ Overflowed r) (goesOn : ∀ a, (task a).Ordinary) (waits : ∀ p ∈ ps, p.Ordinary) :
    (Config.after ps r task).Ordinary := by
  cases r with
  | ok a m => exact ⟨goesOn a, waits⟩
  | error e m =>
    refine ⟨?_, waits⟩
    cases e with
    | stackOverflow depth => exact answered trivial
    | _ => trivial

theorem stepEval (scope : ScopeId) (e : Expr) (waits : ∀ p ∈ ps, p.Ordinary) :
    (Config.stepEval scope e ps m).Ordinary := by
  cases e with
  | symbol name =>
    unfold Config.stepEval
    dsimp only
    split <;> exact ⟨trivial, waits⟩
  | pair id mark head args =>
    cases atom : head.isPair with
    | true =>
      cases head with
      | pair id' mark' car cdr => exact ⟨trivial, List.forall_mem_cons.mpr ⟨trivial, waits⟩⟩
      | _ => cases atom
    | false =>
      rw [Config.stepEval_of_isAtom atom]
      exact after (quiet_headFunction scope head _).2 (Task.ordinary_called scope _ args) waits
  | _ => exact ⟨trivial, waits⟩

theorem stepRun {p : Program Expr} (own : p.Ordinary) (waits : ∀ p ∈ ps, p.Ordinary) :
    (Config.stepRun w p ps m).Ordinary := by
  cases p with
  | done v => exact ⟨trivial, waits⟩
  | fail e => exact ⟨own, waits⟩
  | perform x next => exact after (quiet_perform w x m).2 own waits
  | eval scope e next => exact ⟨trivial, List.forall_mem_cons.mpr ⟨own, waits⟩⟩
  | call f args scope next => exact ⟨trivial, List.forall_mem_cons.mpr ⟨own, waits⟩⟩
  | traced scope e next =>
    exact ⟨trivial, List.forall_mem_cons.mpr ⟨trivial, List.forall_mem_cons.mpr ⟨own, waits⟩⟩⟩

theorem stepValue (v : Expr) {p : Pending} (first : p.Ordinary) (waits : ∀ p ∈ ps, p.Ordinary) :
    (Config.stepValue v p ps m).Ordinary := by
  cases p with
  | head scope call args =>
    exact after (quiet_functionOfValue v m).2 (Task.ordinary_called scope call args) waits
  | next next => exact ⟨first v, waits⟩
  | _ => exact ⟨trivial, waits⟩

theorem stepError {e : Error} (ordinary : e.Ordinary) (p : Pending) (waits : ∀ p ∈ ps, p.Ordinary) :
    (Config.stepError e p ps m).Ordinary := by
  cases p <;> exact ⟨ordinary, waits⟩

/-- A step goes on to a configuration of the same kind, or refuses a call. -/
theorem step {c d : Config} (h : c.Ordinary) (own : w.Ordinary)
    (within : c.machine.depth ≤ w.maxDepth) (next : c.step w = some d) :
    d.Ordinary ∨ Refuses w c d := by
  obtain ⟨task, ps, m⟩ := c
  obtain ⟨task_ordinary, waits⟩ := h
  cases task with
  | eval scope e =>
    cases next
    exact .inl (stepEval scope e waits)
  | arguments f scope values rest =>
    cases rest with
    | pair id mark e rest =>
      cases next
      exact .inl ⟨trivial, List.forall_mem_cons.mpr ⟨trivial, waits⟩⟩
    | _ =>
      cases next
      exact .inl ⟨trivial, waits⟩
  | apply f args scope =>
    by_cases full : w.maxDepth ≤ m.depth
    · have refused := next
      simp only [Config.step, full, if_true, Option.some.injEq] at next
      subst next
      exact .inr ⟨⟨f, args, scope, rfl⟩, Nat.le_antisymm within full, refused, rfl, rfl⟩
    · simp only [Config.step, full, if_false, Option.some.injEq] at next
      subst next
      exact .inl ⟨f.ordinary_program own args scope, List.forall_mem_cons.mpr ⟨trivial, waits⟩⟩
  | run p =>
    cases next
    exact .inl (stepRun task_ordinary waits)
  | value v =>
    cases ps with
    | nil => cases next
    | cons p ps =>
      cases next
      obtain ⟨first, waits⟩ := List.forall_mem_cons.mp waits
      exact .inl (stepValue v first waits)
  | error e =>
    cases ps with
    | nil => cases next
    | cons p ps =>
      cases next
      exact .inl (stepError task_ordinary p (List.forall_mem_cons.mp waits).2)

end Config.Ordinary

variable {w : World} {c d : Config}

/-- An error goes on as the same error. -/
theorem Config.task_of_error {e : Error} (failed : c.task = .error e) (next : c.step w = some d) :
    d.task = .error e := by
  obtain ⟨task, ps, m⟩ := c
  cases failed
  cases ps with
  | nil => cases next
  | cons p ps =>
    cases next
    cases p <;> rfl

theorem CallStep.depth_le (h : CallStep w c d) (within : c.machine.depth ≤ w.maxDepth) :
    d.machine.depth ≤ w.maxDepth := by
  cases h with
  | begun room =>
    rw [depth_enterCall]
    exact room
  | refused full => exact within
  | ended traced depth r left =>
    rw [left, depth_leaveCall]
    exact Nat.le_trans (Nat.sub_le _ _) within
  | other depth trace =>
    rw [depth]
    exact within

/-- On the way of an evaluation the depth of calls stays within the limit. -/
theorem Config.Reaches.depth_le (h : Reaches w c d) (within : c.machine.depth ≤ w.maxDepth) :
    d.machine.depth ≤ w.maxDepth := by
  induction h with
  | refl => exact within
  | tail _ next ih => exact (Config.callStep next).depth_le ih

/-- As long as no call has been refused, none of the errors is an overflow. From a
refused call on there is nothing but its error. -/
theorem Config.Reaches.ordinary_or_refused (h : Reaches w c d) (own : w.Ordinary)
    (begins : c.Ordinary) (within : c.machine.depth ≤ w.maxDepth) :
    d.Ordinary ∨ ∃ call next, Reaches w c call ∧ Refuses w call next ∧ Reaches w next d ∧
      d.task = .error (.stackOverflow w.maxDepth) := by
  -- The invariant of the run: nothing leads to an overflow yet, or a call was refused and
  -- the error of that call is what is left.
  induction h with
  | refl => exact .inl begins
  | @tail d d' reached next ih =>
    rcases ih with ordinary | ⟨call, refused, made, refuses, goesOn, failed⟩
    · rcases ordinary.step own (Reaches.depth_le reached within) next with still | refuses
      · exact .inl still
      · exact .inr ⟨d, d', reached, refuses, .refl, refuses.error⟩
    · exact .inr ⟨call, refused, made, refuses, goesOn.tail next, task_of_error failed next⟩

/-- An evaluation with balanced calls: it ends at the depth that it began at, never
exceeds the limit, and reports an overflow only for a call that it refused. -/
structure Balanced (w : World) (start : Config) (r : EStateM.Result Error Machine Expr) : Prop where
  ends : Reaches w start (after [] r .value)
  restored : (finalMachine r).depth = start.machine.depth
  bounded : ∀ c, Reaches w start c → c.machine.depth ≤ w.maxDepth
  refused : w.Ordinary → ∀ c depth, Reaches w start c → c.task = .error (.stackOverflow depth) →
    depth = w.maxDepth ∧
      ∃ call next, Reaches w start call ∧ Refuses w call next ∧ Reaches w next c

theorem Balanced.of_reaches {start : Config} {r : EStateM.Result Error Machine Expr}
    (begins : start.Ordinary) (within : start.machine.depth ≤ w.maxDepth)
    (ends : Reaches w start (after [] r .value))
    (restored : (finalMachine r).depth = start.machine.depth) : Balanced w start r where
  ends := ends
  restored := restored
  bounded _ reached := Reaches.depth_le reached within
  refused own c depth reached failed := by
    rcases Reaches.ordinary_or_refused reached own begins within with
      ordinary | ⟨call, next, made, refuses, goesOn, overflow⟩
    · have told := ordinary.task
      rw [failed] at told
      exact told.elim
    · cases failed.symm.trans overflow
      exact ⟨rfl, call, next, made, refuses, goesOn⟩

/-- Every evaluation and every application has balanced calls, from every depth within
the limit. -/
theorem World.calls_balanced (w : World) {m : Machine} (within : m.depth ≤ w.maxDepth) :
    (∀ scope e, Balanced w ⟨.eval scope e, [], m⟩ (w.eval scope e m)) ∧
      ∀ f args scope, Balanced w ⟨.apply f args scope, [], m⟩ (w.apply f args scope m) := by
  constructor
  · intro scope e
    obtain ⟨ends, restored⟩ := (computes_evaluate (computes_applyWithin w _) scope e).1 [] m rfl
    exact .of_reaches ⟨trivial, nofun⟩ within ends restored
  · intro f args scope
    obtain ⟨ends, restored⟩ := computes_applyWithin w _ f args scope [] m rfl
    exact .of_reaches ⟨trivial, nofun⟩ within ends restored

/-- A call within a call, where only one call may be nested and no functions are
registered. -/
theorem nestedCall_balanced :
    Machine.bare.depth ≤ (World.limitedTo {} 1).maxDepth ∧ (World.limitedTo {} 1).Ordinary ∧
      Overflowed ((World.limitedTo {} 1).eval Store.root nestedCall Machine.bare) ∧
      Balanced (World.limitedTo {} 1) ⟨.eval Store.root nestedCall, [], Machine.bare⟩
        ((World.limitedTo {} 1).eval Store.root nestedCall Machine.bare) := by
  have within : Machine.bare.depth ≤ (World.limitedTo {} 1).maxDepth := by decide
  have own : (World.limitedTo {} 1).Ordinary := by
    simp [World.Ordinary, World.limitedTo]
  exact ⟨within, own, trivial, (World.calls_balanced _ within).1 _ _⟩

end Lisp
