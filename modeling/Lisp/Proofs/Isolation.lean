import Lisp.Proofs.ScopeDiscipline

/-!
# Scopes that an evaluation cannot reach

From an expression and the scope that it is evaluated in, scopes are reached through
parents, through the closures of the expression, and through what the reached scopes
hold. An evaluation changes no other scope that was there before, and every closure
that it returns or stores captures a scope that could be reached before, or one that
the evaluation made. So the variables of a closure belong to it alone, as long as
nobody else is handed a way to them.
-/

namespace Lisp

namespace Store

/-- The scopes that are reached from an expression and a scope. -/
inductive Reachable (s : Store) (e : Expr) (scope : ScopeId) : ScopeId → Prop where
  | start : Reachable s e scope scope
  | root : Reachable s e scope root
  | parent {id around : ScopeId} : Reachable s e scope id → s.Parent id around →
      Reachable s e scope around
  | expression {id : ScopeId} : e.Captures id → Reachable s e scope id
  | held {id captured : ScopeId} {name : String} {v : Expr} : Reachable s e scope id →
      s.Holds id name v → v.Captures captured → Reachable s e scope captured

variable {s : Store} {e : Expr} {scope id : ScopeId}

/-- What lies around a reachable scope is reachable. -/
theorem Coherent.reachable_outer (h : s.Coherent) (has : s.Has id)
    (reachable : s.Reachable e scope id) : ∀ around ∈ s.outer id, s.Reachable e scope around := by
  revert reachable
  refine h.induct (motive := fun id => s.Reachable e scope id →
    ∀ around ∈ s.outer id, s.Reachable e scope around) ?_ ?_ has
  · intro _ around mem
    rw [h.outer_root] at mem
    cases mem
  · intro id parent _ _ chain outside reachable around mem
    have next := reachable.parent (parent_of_outer chain)
    rw [chain] at mem
    rcases List.mem_cons.mp mem with rfl | mem
    · exact next
    · exact outside next around mem

/-- The reachable scopes together with those that are yet to be made. -/
def region (s : Store) (e : Expr) (scope : ScopeId) : Set ScopeId :=
  {id | s.Reachable e scope id ∨ ¬ s.Has id}

/-- Nothing else is found from the scopes that are reachable. -/
theorem closed_region (coherent : s.Coherent) (closed : s.Closed (s.territory Set.univ)) :
    s.Closed (s.territory (s.region e scope)) where
  root := ⟨.inl .root, coherent.has_root⟩
  has _ there := there.2
  outer id there around mem := by
    have reachable := there.1.resolve_right (not_not_intro there.2)
    have has := closed.outer id ⟨trivial, there.2⟩ around mem
    exact ⟨.inl (coherent.reachable_outer there.2 reachable around mem), has.2⟩
  held id there name v holds captured captures := by
    have reachable := there.1.resolve_right (not_not_intro there.2)
    have has := closed.held id ⟨trivial, there.2⟩ name v holds captures
    exact ⟨.inl (reachable.held holds captures), has.2⟩

/-- Whether a scope could be reached before an evaluation, or was made by it. -/
def ReachableOrMade (before after : Store) (e : Expr) (scope id : ScopeId) : Prop :=
  before.Reachable e scope id ∨ (¬ before.Has id ∧ after.Has id)

/-- An evaluation leaves every scope that was there and could not be reached exactly
as it was. Closures in its value, and closures that are held afterwards in scopes that
could be reached or that it made, capture only such scopes. -/
theorem Reached.isolation {w : World} {m : Machine} (library : w.registered = #[])
    (reached : m.store.Reached) (admits : m.store.Admits scope e) :
    let after := (finalMachine (w.eval scope e m)).store
    (∀ id, m.store.Has id → ¬ m.store.Reachable e scope id →
        after.scopes[id.index]? = m.store.scopes[id.index]?) ∧
      (∀ v m', w.eval scope e m = .ok v m' → ∀ id, v.Captures id →
        m.store.ReachableOrMade after e scope id) ∧
      ∀ id, m.store.ReachableOrMade after e scope id → ∀ name v captured, after.Holds id name v →
        v.Captures captured → m.store.ReachableOrMade after e scope captured := by
  intro after
  obtain ⟨coherent, closed⟩ := reached.coherent_closed
  have begins : Config.Within (m.store.region e scope) ⟨.eval scope e, [], m⟩ :=
    admits.within (fun _ no => .inr no) (closed_region coherent closed) (.inl .start)
      fun _ captures => .inl (.expression captures)
  obtain ⟨ends, extended⟩ := begins.reaches library (w.reaches_eval scope e m)
  have same : (Config.after [] (w.eval scope e m) .value).machine.store = after := by
    rw [machine_after]
  have endsClosed := ends.closed
  rw [same] at extended endsClosed
  have inside : ∀ id ∈ after.territory (m.store.region e scope),
      m.store.ReachableOrMade after e scope id :=
    fun id there => there.1.imp_right fun no => ⟨no, there.2⟩
  refine ⟨?_, ?_, ?_⟩
  · intro id has unreachable
    exact extended.outside id fun mem => mem.elim unreachable fun unmade => unmade has
  · intro v m' result id captures
    have value := ends.task
    rw [same, result] at value
    exact inside id (value captures)
  · intro id there name v captured holds captures
    have mem : id ∈ m.store.region e scope := there.imp_right And.left
    exact inside captured (endsClosed.held id ⟨mem, holds.has⟩ name v holds captures)

/-- A `let` with an empty body, with the form itself as its head. -/
def emptyLet : Expr :=
  .pair ⟨0⟩ none (.function (.object ⟨1⟩ (.builtin .letParallel)))
    (.pair ⟨2⟩ none
      (.pair ⟨3⟩ none (.pair ⟨4⟩ none (.symbol "n") (.pair ⟨5⟩ none (.integer 0) .nil)) .nil) .nil)

theorem store_emptyLet : (finalMachine (World.eval {} root emptyLet Machine.initial)).store =
    (withBuiltins.enter root [("n", .integer 0)]).2 := rfl

/-- The scope of a `let` that is over cannot be reached from a later form, and an
assignment to a variable of the same name leaves it alone. -/
theorem isolation_after_let :
    let m := finalMachine (World.eval {} root emptyLet Machine.initial)
    let e := expressionOf "(setq n 5)"
    let inner : ScopeId := ⟨1⟩
    m.store.Has inner ∧ ¬ m.store.Reachable e root inner ∧
      (finalMachine (World.eval {} root e m)).store.scopes[inner.index]? =
        m.store.scopes[inner.index]? := by
  intro m e inner
  have library := isLibrary_withBuiltins
  have has : m.store.Has inner := by
    rw [store_emptyLet, has_enter]
    exact .inr (by rw [fresh, library.size])
  have reachable : ∀ id, m.store.Reachable e root id → id = root := by
    intro id reachable
    induction reachable with
    | start => rfl
    | root => rfl
    | parent _ step ih =>
      subst ih
      rw [Parent, parent?, store_emptyLet, outer_enter _ _ _ library.coherent.has_root,
        library.outer] at step
      cases step
    | expression captures =>
      have inside : _ ∈ e.captured := captures
      rw [captured_expressionOf] at inside
      exact inside.elim
    | held _ holds captures ih =>
      subst ih
      obtain ⟨b, found, slot⟩ := holds
      rw [store_emptyLet, local?_enter _ _ _ library.coherent.has_root] at found
      have inside : _ ∈ Sexp.captured _ := captures
      rw [library.held root _ _ ⟨b, found, slot⟩] at inside
      exact inside.elim
  have unreachable : ¬ m.store.Reachable e root inner := fun h =>
    absurd (reachable inner h) (by decide)
  have reached : m.store.Reached :=
    .eval rfl .library ⟨library.coherent.has_root, fun id captures => by
      have inside : id ∈ emptyLet.captured := captures
      simp [emptyLet, Code.captured, Code.scope?, Code.body, Function.code] at inside⟩
  have there : m.store.Has root := reached.coherent_closed.1.has_root
  have admits : m.store.Admits root e := admits_expressionOf there _
  obtain ⟨untouched, _, _⟩ := Reached.isolation (w := {}) rfl reached admits
  exact ⟨has, unreachable, untouched inner has unreachable⟩

end Store

end Lisp
