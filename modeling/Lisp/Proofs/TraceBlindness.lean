import Lisp.Proofs.CallTrace

/-!
# Call tracing only observes

Nothing in an evaluation looks at the call trace, or asks whether calls are traced. On
two machines that differ in nothing else it ends with the same value or the same error,
and leaves machines that again differ in nothing else: the scopes, what was printed,
the counters, the depth of calls and the files asked for are the same. A program that
switches tracing on for one of its expressions changes only what is recorded, and finds
the setting that it began with afterwards, also when the expression fails.
-/

namespace Lisp

/-- A machine without its call trace, and with tracing switched off. -/
def Machine.untraced (m : Machine) : Machine := { m with tracing := false, trace := #[] }

theorem Machine.untraced_enterCall (m : Machine) (name : String) (args : List Expr) :
    (m.enterCall name args).untraced =
      { m.untraced.countCall with depth := m.untraced.depth + 1 } := by
  unfold enterCall record
  dsimp only
  split <;> rfl

theorem Machine.untraced_leaveCall (m : Machine) (traced : Bool) (depth : Nat)
    (r : Except Error Expr) :
    (m.leaveCall traced depth r).untraced =
      { m.untraced with depth := m.untraced.depth - 1 } := by
  unfold leaveCall record
  dsimp only
  split <;> rfl

variable {α β : Type}

/-- The same end on machines that differ only in the call trace. -/
structure Alike (r r' : EStateM.Result Error Machine α) : Prop where
  outcome : outcome r = outcome r'
  machine : (finalMachine r).untraced = (finalMachine r').untraced

namespace Alike

variable {r r' r'' : EStateM.Result Error Machine α}

theorem symm (h : Alike r r') : Alike r' r := ⟨h.outcome.symm, h.machine.symm⟩

theorem trans (h : Alike r r') (h' : Alike r' r'') : Alike r r'' :=
  ⟨h.outcome.trans h'.outcome, h.machine.trans h'.machine⟩

/-- Two computations that end alike both return the same value or both fail with the
same error. -/
theorem cases (h : Alike r r') :
    (∃ a m m', r = .ok a m ∧ r' = .ok a m' ∧ m.untraced = m'.untraced) ∨
      ∃ e m m', r = .error e m ∧ r' = .error e m' ∧ m.untraced = m'.untraced := by
  obtain ⟨ends, machine⟩ := h
  cases r with
  | ok a m =>
    cases r' with
    | ok a' m' =>
      obtain rfl : a = a' := Except.ok.inj ends
      exact .inl ⟨a, m, m', rfl, rfl, machine⟩
    | error e' m' => cases ends
  | error e m =>
    cases r' with
    | ok a' m' => cases ends
    | error e' m' =>
      obtain rfl : e = e' := Except.error.inj ends
      exact .inr ⟨e, m, m', rfl, rfl, machine⟩

end Alike

/-- A computation for which the call trace makes no difference. -/
def Blind (run : Run α) : Prop := ∀ m, Alike (run m) (run m.untraced)

namespace Blind

/-- On machines that differ only in the call trace it ends alike. -/
theorem alike {run : Run α} (h : Blind run) {m m' : Machine} (same : m.untraced = m'.untraced) :
    Alike (run m) (run m') := by
  have there := h m
  rw [same] at there
  exact there.trans (h m').symm

theorem bind {run : Run α} {next : α → Run β} (first : Blind run) (later : ∀ a, Blind (next a)) :
    Blind (run >>= next) := by
  intro m
  rcases (first m).cases with
    ⟨a, m₁, m₂, result, result', same⟩ | ⟨e, m₁, m₂, result, result', same⟩
  · rw [bind_of_ok result, bind_of_ok result']
    exact (later a).alike same
  · rw [bind_of_error result, bind_of_error result']
    exact ⟨rfl, same⟩

theorem update (id : ScopeId) (name : String) (f : Binding → Binding) :
    Blind (Machine.update id name f) := by
  intro m
  have same : m.untraced.store = m.store := rfl
  unfold Machine.update
  rw [same]
  split <;> exact ⟨rfl, rfl⟩

theorem perform (w : World) (x : Effect) : Blind (x.perform w) := by
  intro m
  cases x with
  | assign scope name v => exact update _ _ _ m
  | defineGlobal name v => exact update _ _ _ m
  | defineConstant name v => exact update _ _ _ m
  | defineFunction name f => exact update _ _ _ m
  | file path =>
    simp only [Effect.perform]
    split <;> exact ⟨rfl, rfl⟩
  | _ => exact ⟨rfl, rfl⟩

/-- Switching tracing on and back is itself a matter of the call trace alone. -/
theorem traced {run : Run Expr} (h : Blind run) : Blind (traced run) := by
  intro m
  have inside : Alike (run { m with tracing := true }) (run { m.untraced with tracing := true }) :=
    h.alike rfl
  unfold Lisp.traced
  rcases inside.cases with ⟨v, m₁, m₂, on, off, same⟩ | ⟨e, m₁, m₂, on, off, same⟩
  · rw [on, off]
    exact ⟨rfl, same⟩
  · rw [on, off]
    exact ⟨rfl, same⟩

theorem framed {run : Run Expr} (h : Blind run) (name : String) (args : List Expr) :
    Blind (framed name args run) := by
  intro m
  have entered : (m.enterCall name args).untraced = (m.untraced.enterCall name args).untraced := by
    rw [Machine.untraced_enterCall, Machine.untraced_enterCall]
    rfl
  have left : ∀ (r : Except Error Expr) (m₁ m₂ : Machine), m₁.untraced = m₂.untraced →
      (m₁.leaveCall m.tracing m.depth r).untraced =
        (m₂.leaveCall m.untraced.tracing m.untraced.depth r).untraced := by
    intro r m₁ m₂ same
    rw [Machine.untraced_leaveCall, Machine.untraced_leaveCall, same]
  unfold Lisp.framed
  rcases (h.alike entered).cases with ⟨v, m₁, m₂, on, off, same⟩ | ⟨e, m₁, m₂, on, off, same⟩
  · rw [on, off]
    exact ⟨rfl, left _ _ _ same⟩
  · rw [on, off]
    exact ⟨rfl, left _ _ _ same⟩

end Blind

theorem compositional_blind (w : World) : Compositional w fun _ _ run => Blind run where
  pure _ _ := ⟨rfl, rfl⟩
  throw _ _ := ⟨rfl, rfl⟩
  bind := Blind.bind
  count _ _ := ⟨rfl, rfl⟩
  read h same m := by
    rw [get_bind, get_bind, same m.untraced m rfl]
    exact h m m
  perform := Blind.perform w
  traced := Blind.traced
  framed name args h := h.framed name args

/-- An evaluation with call tracing switched on and one with it switched off end with
the same value or the same error, on machines that differ at most in the call trace. Both
end with tracing as it was switched and with calls nested as deeply as at the beginning. -/
theorem World.eval_untraced (w : World) (scope : ScopeId) (e : Expr) (m : Machine) :
    let on := w.eval scope e { m with tracing := true }
    let off := w.eval scope e { m with tracing := false }
    outcome on = outcome off ∧ (finalMachine on).untraced = (finalMachine off).untraced ∧
      (finalMachine on).tracing = true ∧ (finalMachine off).tracing = false ∧
      (finalMachine on).depth = m.depth ∧ (finalMachine off).depth = m.depth := by
  intro on off
  have blind : Blind (evaluate (applyWithin w (w.maxDepth - m.depth)) scope e) :=
    (compositional_blind w).eval _ scope e
  have same : Alike on off := blind.alike rfl
  have recordsOn := w.records_eval scope e { m with tracing := true }
  have recordsOff := w.records_eval scope e { m with tracing := false }
  exact ⟨same.outcome, same.machine, recordsOn.tracing, recordsOff.tracing, recordsOn.depth,
    recordsOff.depth⟩

end Lisp
