import Lisp.Proofs.Returning
import Lisp.Proofs.Uniformity

/-!
# Runs that end alike, whatever they count

Two ways to do the same thing need not take the same number of steps, nor nest their calls as
deeply. Their ends are compared without the counters, the depth of calls and the call trace.
On the one side there may be calls that the other side does not make, and objects may be made
on one side alone.

Evaluation looks at counters only for what is counted during an evaluation. So the same
expressions end alike on machines that have counted differently before.
-/

namespace Lisp

/-- Machines that differ at most in counters, in the depth of calls and in the call trace. -/
structure Machine.Agrees (m m' : Machine) : Prop where
  store : m.store = m'.store
  objects : m.objects = m'.objects
  printed : m.printed = m'.printed
  requested : m.requested = m'.requested

namespace Machine.Agrees

variable {m m' m'' : Machine}

theorem refl (m : Machine) : m.Agrees m := ⟨rfl, rfl, rfl, rfl⟩

theorem symm (h : m.Agrees m') : m'.Agrees m :=
  ⟨h.store.symm, h.objects.symm, h.printed.symm, h.requested.symm⟩

theorem trans (h : m.Agrees m') (h' : m'.Agrees m'') : m.Agrees m'' :=
  ⟨h.store.trans h'.store, h.objects.trans h'.objects, h.printed.trans h'.printed,
    h.requested.trans h'.requested⟩

theorem enterCall (m : Machine) (name : String) (args : List Expr) :
    (m.enterCall name args).Agrees m := by
  obtain ⟨trace, entered⟩ := m.exists_enterCall_eq name args
  rw [entered]
  exact ⟨rfl, rfl, rfl, rfl⟩

theorem leaveCall (m : Machine) (traced : Bool) (depth : Nat) (r : Except Error Expr) :
    (m.leaveCall traced depth r).Agrees m := by
  obtain ⟨trace, left⟩ := m.exists_leaveCall_eq traced depth r
  rw [left]
  exact ⟨rfl, rfl, rfl, rfl⟩

end Machine.Agrees

/-- The same value or error at the end, on machines that agree. -/
structure SameEnd {α : Type} (r r' : EStateM.Result Error Machine α) : Prop where
  outcome : outcome r = outcome r'
  machine : (finalMachine r).Agrees (finalMachine r')

namespace SameEnd

variable {α : Type} {r r' : EStateM.Result Error Machine α}

theorem refl (r : EStateM.Result Error Machine α) : SameEnd r r := ⟨rfl, .refl _⟩

theorem exists_ok {a : α} {m : Machine} (h : SameEnd r (.ok a m)) :
    ∃ m', r = .ok a m' ∧ m'.Agrees m := by
  obtain ⟨ends, machine⟩ := h
  cases r with
  | ok b m' =>
    obtain rfl : b = a := Except.ok.inj ends
    exact ⟨m', rfl, machine⟩
  | error e m' => cases ends

theorem exists_error {e : Error} {m : Machine} (h : SameEnd r (.error e m)) :
    ∃ m', r = .error e m' ∧ m'.Agrees m := by
  obtain ⟨ends, machine⟩ := h
  cases r with
  | ok b m' => cases ends
  | error d m' =>
    obtain rfl : d = e := Except.error.inj ends
    exact ⟨m', rfl, machine⟩

theorem overflowed (h : SameEnd r r') (refused : Overflowed r') : Overflowed r := by
  obtain ⟨depth, m, rfl⟩ := refused.exists_error
  obtain ⟨m', rfl, -⟩ := h.exists_error
  trivial

/-- The begin and the end of a call leave no trace but in the call trace. -/
theorem framed (name : String) (args : List Expr) (run : Run Expr) (m : Machine) :
    SameEnd (framed name args run m) (run (m.enterCall name args)) := by
  unfold Lisp.framed
  cases run (m.enterCall name args) with
  | ok v m' => exact ⟨rfl, .leaveCall ..⟩
  | error e m' => exact ⟨rfl, .leaveCall ..⟩

end SameEnd

namespace Likeness

variable {α β γ δ : Type} {ρ : Likeness} {post : Likeness → α → β → Prop}

theorem LikeMachine.of_agrees {m₁ m₁' m m' : Machine} (h : ρ.LikeMachine m m') (left : m₁.Agrees m)
    (right : m₁'.Agrees m') : ρ.LikeMachine m₁ m₁' where
  store := by
    rw [left.store, right.store]
    exact h.store
  left := left.objects.trans h.left
  right := right.objects.trans h.right
  printed := by rw [left.printed, right.printed, h.printed]
  requested := by rw [left.requested, right.requested, h.requested]

/-- Computations that end alike on all machines that are alike. -/
abbrev EndAlike (post : Likeness → α → β → Prop) (ρ : Likeness) (run : Run α) (run' : Run β) :
    Prop := LikeRun LikeMachine post ρ run run'

end Likeness

open Likeness

variable {α β γ δ : Type} {ρ : Likeness} {post : Likeness → α → β → Prop}

/-- Ends that are the same as two that are alike are alike. -/
theorem LikeEnd.congr {r r₁ : EStateM.Result Error Machine α}
    {r' r₁' : EStateM.Result Error Machine β} (h : LikeEnd LikeMachine post ρ r r')
    (left : SameEnd r₁ r) (right : SameEnd r₁' r') : LikeEnd LikeMachine post ρ r₁ r₁' := by
  cases h with
  | refused refused => exact .refused (refused.imp left.overflowed right.overflowed)
  | ok le value state =>
    obtain ⟨m₁, rfl, agrees⟩ := left.exists_ok
    obtain ⟨m₁', rfl, agrees'⟩ := right.exists_ok
    exact .ok le value (state.of_agrees agrees agrees')
  | error e le state =>
    obtain ⟨m₁, rfl, agrees⟩ := left.exists_error
    obtain ⟨m₁', rfl, agrees'⟩ := right.exists_error
    exact .error e le (state.of_agrees agrees agrees')

namespace Likeness

section Rules

variable {run : Run α} {run' : Run β}

/-- Computations that go in step whatever was counted before end alike. -/
theorem EndAlike.of_inStep (h : ∀ o, ρ.InStep o post run run') : ρ.EndAlike post run run' := by
  intro m m' state
  have abreast : Outset.Abreast ⟨m.counters, m'.counters⟩ m.counters m'.counters :=
    ⟨Nat.add_comm _ _, Nat.add_comm _ _, Nat.add_comm _ _, Nat.add_comm _ _⟩
  exact (h _ m m' { state with abreast }).imp fun _ _ _ => LikeCounting.toLikeMachine

/-- A call on the right that the left side does not make. -/
theorem EndAlike.framed_right {post : Likeness → α → Expr → Prop} {run' : Run Expr}
    (h : ρ.EndAlike post run run') (name : String) (args : List Expr) :
    ρ.EndAlike post run (framed name args run') := fun m m' state =>
  (h m _ (state.of_agrees (.refl m) (.enterCall m' name args))).congr (.refl _)
    (.framed name args run' m')

end Rules

section Uniform

variable {w : World} (uniform : w.Uniform) (n k : Nat)

include uniform

theorem endAlike_evaluate (scope : ScopeId) {e e' : Expr} (known : ρ.Like e e') :
    ρ.EndAlike Like (evaluate (applyWithin w n) scope e) (evaluate (applyWithin w k) scope e') :=
  .of_inStep fun _ => (inStep_evaluate (inStep_applyWithin uniform n k) scope known ρ le_rfl).1

theorem endAlike_mapM (scope : ScopeId) {es es' : List Expr} (known : ρ.LikeAll es es') :
    ρ.EndAlike LikeAll (es.mapM (evaluate (applyWithin w n) scope))
      (es'.mapM (evaluate (applyWithin w k) scope)) := by
  induction es generalizing ρ es' with
  | nil =>
    cases known
    exact .pure .nil
  | cons e es ih =>
    cases known with
    | cons first rest =>
      rw [List.mapM_cons, List.mapM_cons]
      refine (endAlike_evaluate uniform n k scope first).bind fun σ le v v' value => ?_
      refine (ih (LikeAll.mono le rest)).bind fun τ le' vs vs' values => ?_
      exact .pure (.cons (value.mono le') values)

theorem endAlike_run {p : Program α} {p' : Program β} (h : ∀ o, ρ.LikeProgram o post p p') :
    ρ.EndAlike post (p.run w (applyWithin w n)) (p'.run w (applyWithin w k)) :=
  .of_inStep fun o => inStep_run w (inStep_applyWithin uniform n k) (h o)

theorem endAlike_applyWithin {f f' : Function} (function : ρ.LikeFunction f f')
    {args args' : List Expr} (known : ρ.LikeAll args args') (scope : ScopeId) :
    ρ.EndAlike Like (applyWithin w n f args scope) (applyWithin w k f' args' scope) :=
  .of_inStep fun _ => inStep_applyWithin uniform n k ρ f f' args args' scope function known

end Uniform

end Likeness

end Lisp
