import Lisp.Proofs.Termination

/-!
# The limit on nested calls

The number of calls that may be nested decides whether an evaluation is refused,
and nothing else. An evaluation under a tighter limit either ends because a call
was one too many, or it ends exactly as under a wider limit: with the same value
or error, and on the same machine, which is to say with the same scopes, printed
lines, counters and call trace.

Two facts carry this. A request never learns how deeply calls are nested, and
nothing in a program, the call trace or the end of a call turns an error into a
value; so once a call has been refused the whole evaluation ends with that error.
-/

namespace Lisp

variable {α β : Type}

/-- The same world with another limit on nested calls. -/
def World.limitedTo (w : World) (limit : Nat) : World := { w with maxDepth := limit }

/-- Whether a computation ended because calls were nested too deeply. -/
def Overflowed : EStateM.Result Error Machine α → Prop
  | .error (.stackOverflow _) _ => True
  | _ => False

theorem Overflowed.exists_error {r : EStateM.Result Error Machine α} (h : Overflowed r) :
    ∃ depth m, r = .error (.stackOverflow depth) m := by
  cases r with
  | ok a m => exact h.elim
  | error e m =>
    cases e with
    | stackOverflow depth => exact ⟨depth, m, rfl⟩
    | _ => exact h.elim

/-- From every machine the one computation overflows or does what the other does. -/
def Tightens (tight wide : Run α) : Prop := ∀ m, Overflowed (tight m) ∨ tight m = wide m

namespace Tightens

theorem refl (run : Run α) : Tightens run run := fun _ => .inr rfl

/-- An overflow of the first part is an overflow of the whole. -/
theorem bind {tight wide : Run α} {next next' : α → Run β} (first : Tightens tight wide)
    (later : ∀ a, Tightens (next a) (next' a)) : Tightens (tight >>= next) (wide >>= next') := by
  intro m
  rcases first m with refused | same
  · obtain ⟨depth, m', result⟩ := refused.exists_error
    rw [bind_of_error result]
    exact .inl trivial
  · cases result : wide m with
    | ok a m' =>
      rw [bind_of_ok result, bind_of_ok (same.trans result)]
      exact later a m'
    | error e m' =>
      rw [bind_of_error result, bind_of_error (same.trans result)]
      exact .inr rfl

/-- Restoring the setting of the call trace does not hide an overflow. -/
theorem traced {tight wide : Run α} (h : Tightens tight wide) :
    Tightens (traced tight) (traced wide) := by
  intro m
  unfold Lisp.traced
  rcases h { m with tracing := true } with refused | same
  · obtain ⟨depth, m', result⟩ := refused.exists_error
    rw [result]
    exact .inl trivial
  · rw [same]
    exact .inr rfl

/-- Neither does the end of a call. -/
theorem framed {tight wide : Run Expr} (h : Tightens tight wide) (name : String)
    (args : List Expr) : Tightens (framed name args tight) (framed name args wide) := by
  intro m
  unfold Lisp.framed
  rcases h (m.enterCall name args) with refused | same
  · obtain ⟨depth, m', result⟩ := refused.exists_error
    rw [result]
    exact .inl trivial
  · rw [same]
    exact .inr rfl

end Tightens

variable {tight wide : Applier}

theorem tightens_callee (scope : ScopeId) (head : Expr) {evaluated evaluated' : Run Expr}
    (h : Tightens evaluated evaluated') :
    Tightens (callee scope head evaluated) (callee scope head evaluated') := by
  cases head with
  | pair id mark car cdr => exact h.bind fun v => .refl (functionOfValue v)
  | _ => exact .refl _

/-- If applications overflow or agree then so do evaluations. -/
theorem tightens_evaluate
    (applied : ∀ f args scope, Tightens (tight f args scope) (wide f args scope))
    (scope : ScopeId) (e : Expr) :
    Tightens (evaluate tight scope e) (evaluate wide scope e) ∧
      Tightens (evaluateItems tight scope e) (evaluateItems wide scope e) := by
  induction e with
  | pair id mark head args ihHead ihArgs =>
    constructor
    · intro m
      rw [evaluate_pair, evaluate_pair]
      refine (tightens_callee scope head ihHead.1).bind (fun f => ?_) m.countEvaluation
      unfold callWith
      cases args.properItems? with
      | none => exact .refl _
      | some items =>
        cases f.isSpecial with
        | true => exact applied f items scope
        | false => exact ihArgs.2.bind fun values => applied f values scope
    · rw [evaluateItems, evaluateItems]
      exact ihHead.1.bind fun v => ihArgs.2.bind fun vs => .refl _
  | _ => exact ⟨.refl _, .refl _⟩

/-- If applications overflow or agree then so do programs. -/
theorem tightens_run (w : World) (limit : Nat)
    (applied : ∀ f args scope, Tightens (tight f args scope) (wide f args scope)) (p : Program α) :
    Tightens (p.run w tight) (p.run (w.limitedTo limit) wide) := by
  induction p with
  | done a => exact .refl _
  | fail e => exact .refl _
  | perform x next ih =>
    have same : x.perform w = x.perform (w.limitedTo limit) := by cases x <;> rfl
    rw [Program.run, Program.run, ← same]
    exact (Tightens.refl _).bind ih
  | eval scope e next ih => exact (tightens_evaluate applied scope e).1.bind ih
  | call f args scope next ih => exact (applied f args scope).bind ih
  | traced scope e next ih => exact (tightens_evaluate applied scope e).1.traced.bind ih

/-- Fewer calls that may still be nested make an application overflow or change
nothing. -/
theorem tightens_applyWithin (w : World) (limit : Nat) {n k : Nat} (le : n ≤ k) (f : Function)
    (args : List Expr) (scope : ScopeId) :
    Tightens (applyWithin w n f args scope) (applyWithin (w.limitedTo limit) k f args scope) := by
  -- The tighter bound decides: when it is used up, the left side has overflowed.
  induction n generalizing k f args scope with
  | zero => exact fun _ => .inl trivial
  | succ n ih =>
    obtain ⟨k, rfl⟩ : ∃ j, k = j + 1 := ⟨k - 1, by omega⟩
    have inner : ∀ f args scope,
        Tightens (applyWithin w n f args scope) (applyWithin (w.limitedTo limit) k f args scope) :=
      fun f args scope => ih (by omega) f args scope
    exact (tightens_run w limit inner (f.program w args scope)).framed f.name args

/-- An evaluation that a limit on nested calls does not refuse ends in the same
way, and on the same machine, under every wider limit. -/
theorem World.eval_of_wider_limit (w : World) {limit wider : Nat} (le : limit ≤ wider)
    (scope : ScopeId) (e : Expr) (m : Machine)
    (answered : ¬ Overflowed ((w.limitedTo limit).eval scope e m)) :
    (w.limitedTo wider).eval scope e m = (w.limitedTo limit).eval scope e m := by
  have room : limit - m.depth ≤ wider - m.depth := by omega
  have agree := (tightens_evaluate
    (tightens_applyWithin (w.limitedTo limit) wider room) scope e).1 m
  rcases agree with refused | same
  · exact absurd refused answered
  · exact same.symm

/-- The call `(funcall list 1)`, with function objects at both places, nests two
calls. -/
def nestedCall : Expr :=
  .pair ⟨0⟩ none (.function (.object ⟨1⟩ (.builtin .funcall)))
    (.pair ⟨2⟩ none (.function (.object ⟨3⟩ (.builtin .list)))
      (.pair ⟨4⟩ none (.integer 1) .nil))

theorem nestedCall_of_wider_limit :
    ¬ Overflowed ((World.limitedTo {} 2).eval Store.root nestedCall Machine.bare) ∧
      (World.limitedTo {} 7).eval Store.root nestedCall Machine.bare =
        (World.limitedTo {} 2).eval Store.root nestedCall Machine.bare := by
  have answered : ¬ Overflowed ((World.limitedTo {} 2).eval Store.root nestedCall Machine.bare) :=
    fun refused => refused
  exact ⟨answered, World.eval_of_wider_limit {} (by decide) _ _ _ answered⟩

/-- One call fewer and it is refused. -/
example : Overflowed ((World.limitedTo {} 1).eval Store.root nestedCall Machine.bare) := trivial

end Lisp
