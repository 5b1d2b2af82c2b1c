import Lisp.Proofs.CallTrace
import Lisp.Proofs.Returning

/-!
# What calls of builtins come to

A call at the limit on nested calls is refused. Below it, a call of a builtin comes to what
its body comes to with the arguments. A body that needs nothing from the machine comes to
the same on every machine.
-/

namespace Lisp

variable {w : World} {f : Function} {args : List Expr} {scope : ScopeId} {m : Machine}

theorem World.apply_of_full (w : World) (f : Function) (args : List Expr) (scope : ScopeId)
    (full : w.maxDepth ≤ m.depth) :
    w.apply f args scope m = .error (.stackOverflow w.maxDepth) m := by
  rw [World.apply, Nat.sub_eq_zero_of_le full]
  rfl

/-- Below the limit a call runs what its function does, between its begin and its end. -/
theorem World.apply_of_room (w : World) (f : Function) (args : List Expr) (scope : ScopeId)
    (room : m.depth < w.maxDepth) :
    w.apply f args scope m = framed f.name args (w.run (f.program w args scope)) m := by
  obtain ⟨n, rest, called⟩ := w.apply_eq_framed f args scope room
  have within : w.maxDepth - (m.enterCall f.name args).depth = n := by
    rw [depth_enterCall]
    omega
  rw [called, framed, framed, World.run, within]

theorem outcome_framed (name : String) (args : List Expr) (run : Run Expr) (m : Machine) :
    outcome (framed name args run m) = outcome (run (m.enterCall name args)) := by
  unfold framed
  cases run (m.enterCall name args) <;> rfl

theorem World.outcome_run_map {α : Type} (w : World) (r : Except Error α) (f : α → Expr)
    (m : Machine) : outcome (w.run (do let a ← r; return f a) m) = r.map f := by
  cases r <;> rfl

namespace Builtin

variable {op : Builtin} {post : Except Error Expr → Prop}

/-- How calls of a builtin end that the limit on nested calls lets begin. -/
def CallsEnd (op : Builtin) (args : List Expr) (post : Except Error Expr → Prop) : Prop :=
  ∀ (w : World) (f : Function) (scope : ScopeId) (m : Machine), f.code = .builtin op →
    (w.maxDepth ≤ m.depth ∧ w.apply f args scope m = .error (.stackOverflow w.maxDepth) m) ∨
      (m.depth < w.maxDepth ∧ post (outcome (w.apply f args scope m)))

/-- Calls end as the body does with the arguments. -/
theorem CallsEnd.of_body (body : Site → Program Expr)
    (supplied : ∀ site, op.body.supply site args = .ok (body site))
    (ends : ∀ (w : World) scope m, post (outcome (w.run (body ⟨op.name, scope⟩) m))) :
    op.CallsEnd args post := by
  intro w f scope m code
  rcases Nat.lt_or_ge m.depth w.maxDepth with room | full
  · refine .inr ⟨room, ?_⟩
    rw [w.apply_of_room f args scope room, Function.program_builtin code (supplied _),
      outcome_framed]
    exact ends w scope (m.enterCall f.name args)
  · exact .inl ⟨full, w.apply_of_full f args scope full⟩

theorem CallsEnd.of_room (h : op.CallsEnd args post) (w : World) (f : Function)
    (scope : ScopeId) (m : Machine) (code : f.code = .builtin op) (room : m.depth < w.maxDepth) :
    post (outcome (w.apply f args scope m)) := by
  rcases h w f scope m code with ⟨full, -⟩ | ⟨-, ended⟩
  · omega
  · exact ended

end Builtin

end Lisp
