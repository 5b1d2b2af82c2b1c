import Lisp.Proofs.Lookup

/-!
# Scopes that were opened one below the other

A scope for each of some names, one below the other, makes the names visible and nothing
else, and of equal names the latest. This stays so however a run goes on: what lies around a
scope never changes, no other name is bound in a scope later, and scopes that are opened
afterwards are not seen from those that were there.
-/

namespace Lisp

open Config

variable {w : World} {c d : Config} {region : Set ScopeId}

namespace Store

variable {s s' : Store} {id parent base around : ScopeId} {names : List String}

/-- No request changes what lies around a scope. -/
theorem Revised.outer {x : Effect} (h : s.Revised x s') (has : s.Has id) :
    s'.outer id = s.outer id := by
  cases h with
  | same => rfl
  | assigned => exact outer_change _ _ _ id
  | defined => exact outer_change _ _ _ id
  | entered parent values => exact outer_enter s parent values has

/-- Scopes that were opened below another, one for each of some names, the latest first. -/
inductive Opened (s : Store) (base : ScopeId) : List String → ScopeId → Prop where
  | base : Opened s base [] base
  | bind {names : List String} {name : String} {parent id : ScopeId} :
      Opened s base names parent → s.outer id = s.chain parent →
      (∀ x, (s.local? id x).isSome = decide (x = name)) → Opened s base (name :: names) id

/-- What is seen from the last of such scopes: of these names the nearest bindings, of all
others what is seen from the scope below which they were opened. A closure that captured the
scope sees its arguments and this, and no other scope that is opened changes any of it. -/
structure Sees (s : Store) (base : ScopeId) (names : List String) (around : ScopeId) : Prop where
  opened : s.Opened base names around
  bound : ∀ later x earlier, names = later ++ x :: earlier → x ∉ later →
    ∃ id v, s.Opened base (x :: earlier) id ∧ s.localValue? x id = some v ∧
      s.value? around x = some v
  free : ∀ x ∉ names, s.value? around x = s.value? base x
  captured : ∀ args x,
    (s.enter around args).2.value? s.fresh x = (given args x).or (s.value? around x)
  kept : ∀ parent values x, (s.enter parent values).2.value? around x = s.value? around x

theorem has_of_outer (around : s.outer id = s.chain parent) : s.Has id := by
  by_contra missing
  rw [outer_eq_nil missing] at around
  cases around

theorem Coherent.ne_root_of_outer (h : s.Coherent) (around : s.outer id = s.chain parent) :
    id ≠ root := by
  rintro rfl
  rw [h.outer_root] at around
  cases around

theorem localValue?_eq_none {x name : String}
    (binds : (s.local? id x).isSome = decide (x = name)) (ne : x ≠ name) :
    s.localValue? x id = none := by
  have nothing : s.local? id x = none := by simpa [ne] using binds
  rw [localValue?, nothing]
  rfl

/-- A value is looked for in the scope itself and then from the scope directly around it. -/
theorem value?_of_outer (around : s.outer id = s.chain parent) (x : String) :
    s.value? id x = (s.localValue? x id).or (s.value? parent x) := by
  rw [value?, chain, List.findSome?_cons, around]
  cases s.localValue? x id <;> rfl

/-- What is seen from a scope stays the same when another is opened. -/
theorem Coherent.value?_enter_of_has (h : s.Coherent) (has : s.Has id) (parent : ScopeId)
    (values : List (String × Expr)) (x : String) :
    (s.enter parent values).2.value? id x = s.value? id x := by
  rw [value?, chain, outer_enter s parent values has]
  exact findSome?_congr fun other mem => localValue?_enter (h.has_chain has other mem) parent values

namespace Opened

theorem has (h : s.Opened base names around) (has : s.Has base) : s.Has around := by
  cases h with
  | base => exact has
  | bind _ outer _ => exact has_of_outer outer

/-- Such scopes are the same in every store with the same chains and names. -/
theorem of_sameNames (h : s.Opened base names around) (coherent : s.Coherent) (has : s.Has base)
    (same : s.SameNames s') (outer : ∀ id, s.Has id → s'.outer id = s.outer id) :
    s'.Opened base names around := by
  induction h with
  | base => exact .base
  | @bind names name parent id inner out binds ih =>
    have chain : s'.chain parent = s.chain parent :=
      congrArg (parent :: ·) (outer parent (inner.has has))
    have there := has_of_outer out
    refine .bind ih ((outer id there).trans (out.trans chain.symm)) fun x => ?_
    exact (same id (coherent.ne_root_of_outer out) there x).trans (binds x)

/-- One more scope for a name. -/
theorem enter (h : s.Opened base names parent) (coherent : s.Coherent) (has : s.Has base)
    (name : String) (v : Expr) :
    (s.enter parent [(name, v)]).2.Opened base (name :: names) s.fresh := by
  have there := h.has has
  have before := h.of_sameNames coherent has (coherent.enter there [(name, v)]).2
    fun _ => outer_enter s parent [(name, v)]
  refine .bind before ?_ fun x => ?_
  · rw [outer_enter_fresh, chain, chain, outer_enter s parent _ there]
  · rw [local?_enter_fresh]
    by_cases same : x = name
    · subst same
      simp [given]
    · simp [given, same, Ne.symm same]

theorem free (h : s.Opened base names around) {x : String} (unnamed : x ∉ names) :
    s.value? around x = s.value? base x := by
  induction h with
  | base => rfl
  | @bind names name parent id _ out binds ih =>
    rw [List.mem_cons, not_or] at unnamed
    rw [value?_of_outer out, localValue?_eq_none (binds x) unnamed.1]
    exact ih unnamed.2

theorem bound (h : s.Opened base names around) (coherent : s.Coherent) {later earlier : List String}
    {x : String} (split : names = later ++ x :: earlier) (latest : x ∉ later) :
    ∃ id v, s.Opened base (x :: earlier) id ∧ s.localValue? x id = some v ∧
      s.value? around x = some v := by
  induction h generalizing later with
  | base => cases later <;> cases split
  | @bind names name parent id inner out binds ih =>
    cases later with
    | nil =>
      obtain ⟨rfl, rfl⟩ := List.cons.inj split
      obtain ⟨b, found⟩ := Option.isSome_iff_exists.mp ((binds name).trans (decide_eq_true rfl))
      obtain ⟨v, value⟩ := Option.isSome_iff_exists.mp
        (coherent.plain id name b (coherent.ne_root_of_outer out) found).value
      have here : s.localValue? name id = some v := by rw [localValue?, found]; exact value
      exact ⟨id, v, .bind inner out binds, here, value?_of_localValue? here⟩
    | cons first later =>
      obtain ⟨rfl, rest⟩ := List.cons.inj split
      rw [List.mem_cons, not_or] at latest
      obtain ⟨other, v, opened, here, seen⟩ := ih rest latest.2
      refine ⟨other, v, opened, here, ?_⟩
      rw [value?_of_outer out, localValue?_eq_none (binds x) latest.1]
      exact seen

theorem sees (h : s.Opened base names around) (coherent : s.Coherent) (has : s.Has base) :
    s.Sees base names around where
  opened := h
  bound _ _ _ := h.bound coherent
  free _ := h.free
  captured args x := coherent.value?_enter (h.has has) args x
  kept parent values x := coherent.value?_enter_of_has (h.has has) parent values x

end Opened

end Store

/-- Nor does a whole run. -/
theorem Config.Within.outer (library : w.registered = #[]) (h : c.Within region)
    (steps : Reaches w c d) {id : ScopeId} (has : c.machine.store.Has id) :
    d.machine.store.outer id = c.machine.store.outer id := by
  induction steps with
  | refl => rfl
  | tail before next ih =>
    obtain ⟨within, extended⟩ := h.reaches library before
    obtain ⟨-, x, -, revised⟩ := within.step library next
    exact (revised.outer (extended.has id has)).trans ih

/-- Scopes that were opened for names stay as they are while a run goes on. -/
theorem Store.Opened.reaches {base around : ScopeId} {names : List String}
    (h : c.machine.store.Opened base names around) (library : w.registered = #[])
    (coherent : c.machine.store.Coherent) (within : c.Within Set.univ) (steps : Reaches w c d)
    (has : c.machine.store.Has base) : d.machine.store.Opened base names around :=
  h.of_sameNames coherent has (coherent.reaches library within steps).2
    fun _ => within.outer library steps

end Lisp
