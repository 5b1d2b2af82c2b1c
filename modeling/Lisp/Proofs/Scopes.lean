import Lisp.Proofs.Termination

/-!
# Scopes under change

What is bound in which scope after a binding was changed or a scope was entered,
in terms of what was bound before. A request changes the store in one of three
ways or not at all: it assigns to the scope where a name has its nearest value,
it changes a binding of the root, or it opens a new scope.
-/

namespace Lisp

/-- Whether a value stands in one of the slots of a binding. -/
def Binding.Holds (b : Binding) (v : Expr) : Prop := b.value? = some v ∨ b.function? = some v

namespace Store

/-- A scope of the store. -/
def Has (s : Store) (id : ScopeId) : Prop := id.index < s.scopes.size

/-- The scope that is made next. -/
def fresh (s : Store) : ScopeId := ⟨s.scopes.size⟩

/-- Whether a value stands in one of the slots of a name in a scope. -/
def Holds (s : Store) (id : ScopeId) (name : String) (v : Expr) : Prop :=
  ∃ b, s.local? id name = some b ∧ b.Holds v

variable {s : Store} {id other : ScopeId} {name : String}

theorem holds_of_localValue? {v : Expr} (h : s.localValue? name id = some v) :
    s.Holds id name v := by
  obtain ⟨b, found, slot⟩ := Option.bind_eq_some_iff.mp h
  exact ⟨b, found, .inl slot⟩

theorem holds_of_localFunction? {f : Expr} (h : s.localFunction? name id = some f) :
    s.Holds id name f := by
  obtain ⟨b, found, slot⟩ := Option.bind_eq_some_iff.mp h
  exact ⟨b, found, .inr slot⟩

theorem not_has_fresh (s : Store) : ¬ s.Has s.fresh := Nat.lt_irrefl _

theorem Has.ne_fresh (h : s.Has id) : id ≠ s.fresh := by
  rintro rfl
  exact not_has_fresh s h

theorem local?_eq_none (h : ¬ s.Has id) (name : String) : s.local? id name = none := by
  have outside : s.scopes[id.index]? = none := Array.getElem?_eq_none (Nat.le_of_not_lt h)
  simp [local?, outside]

theorem outer_eq_nil (h : ¬ s.Has id) : s.outer id = [] := by
  have outside : s.scopes[id.index]? = none := Array.getElem?_eq_none (Nat.le_of_not_lt h)
  simp [outer, outside]

theorem Holds.has {v : Expr} (h : s.Holds id name v) : s.Has id := by
  obtain ⟨b, found, _⟩ := h
  by_cases here : s.Has id
  · exact here
  · rw [local?_eq_none here] at found
    cases found

@[simp] theorem has_change (id : ScopeId) (name : String) (f : Binding → Binding) :
    (s.change id name f).Has other ↔ s.Has other := by
  simp [Has, change]

/-- Another scope than the one with the changed binding is the same as before. -/
theorem scopes_change (h : other ≠ id) (name : String) (f : Binding → Binding) :
    (s.change id name f).scopes[other.index]? = s.scopes[other.index]? := by
  have apart : id.index ≠ other.index := fun same => h (by cases id; cases other; simp_all)
  simp [change, Array.getElem?_modify, apart]

@[simp] theorem outer_change (id : ScopeId) (name : String) (f : Binding → Binding)
    (other : ScopeId) : (s.change id name f).outer other = s.outer other := by
  by_cases here : id.index = other.index <;> cases there : s.scopes[other.index]? <;>
    simp [outer, change, Array.getElem?_modify, here, there]

theorem local?_change_self (h : s.Has id) (name : String) (f : Binding → Binding) :
    (s.change id name f).local? id name = some (f ((s.local? id name).getD {})) := by
  have inside : s.scopes[id.index]? = some s.scopes[id.index] := Array.getElem?_eq_getElem h
  simp [local?, change, Array.getElem?_modify, inside]

theorem local?_change_of_ne (h : other ≠ id) (name : String) (f : Binding → Binding)
    (name' : String) : (s.change id name f).local? other name' = s.local? other name' := by
  simp [local?, scopes_change h]

theorem local?_change_name {name' : String} (h : name' ≠ name) (id : ScopeId)
    (f : Binding → Binding) (other : ScopeId) :
    (s.change id name f).local? other name' = s.local? other name' := by
  by_cases here : id.index = other.index <;> cases there : s.scopes[other.index]? <;>
    simp [local?, change, Array.getElem?_modify, here, there, Std.ExtTreeMap.getElem?_alter, h.symm]

/-- Every other binding is the same as before. -/
theorem local?_change_elsewhere {name' : String} (h : ¬ (other = id ∧ name' = name))
    (f : Binding → Binding) :
    (s.change id name f).local? other name' = s.local? other name' := by
  by_cases here : other = id
  · exact local?_change_name (fun same => h ⟨here, same⟩) id f other
  · exact local?_change_of_ne here name f name'

/-- A binding after a change is the changed one or one of before. -/
theorem local?_change_cases {name' : String} {f : Binding → Binding} {b : Binding}
    (h : (s.change id name f).local? other name' = some b) :
    (other = id ∧ name' = name ∧ s.Has id ∧ b = f ((s.local? id name).getD {})) ∨
      s.local? other name' = some b := by
  by_cases here : other = id ∧ name' = name
  · obtain ⟨rfl, rfl⟩ := here
    by_cases has : s.Has other
    · rw [local?_change_self has] at h
      exact .inl ⟨rfl, rfl, has, (Option.some.inj h).symm⟩
    · rw [local?_eq_none (by rwa [has_change])] at h
      cases h
  · rw [local?_change_elsewhere here] at h
    exact .inr h

section Enter

variable (s : Store) (parent : ScopeId) (values : List (String × Expr))

@[simp] theorem enter_fst : (s.enter parent values).1 = s.fresh := rfl

theorem has_enter : (s.enter parent values).2.Has id ↔ s.Has id ∨ id = s.fresh := by
  have index : id = s.fresh ↔ id.index = s.scopes.size := by
    cases id
    simp [fresh]
  simp only [Has, enter, Array.size_push, index]
  omega

theorem scopes_enter (h : s.Has id) :
    (s.enter parent values).2.scopes[id.index]? = s.scopes[id.index]? := by
  have before : id.index ≠ s.scopes.size := Nat.ne_of_lt h
  simp [enter, Array.getElem?_push, before]

theorem outer_enter (h : s.Has id) : (s.enter parent values).2.outer id = s.outer id := by
  simp [outer, scopes_enter s parent values h]

theorem outer_enter_fresh : (s.enter parent values).2.outer s.fresh = s.chain parent := by
  simp [outer, enter, fresh]

theorem local?_enter (h : s.Has id) (name : String) :
    (s.enter parent values).2.local? id name = s.local? id name := by
  simp [local?, scopes_enter s parent values h]

end Enter

/-- The value that a list of bindings gives to a name: of two for one name the
later holds. -/
def given (values : List (String × Expr)) (name : String) : Option Expr :=
  (values.reverse.find? fun b => b.1 = name).map Prod.snd

theorem getElem?_bind (values : List (String × Expr)) (m : Std.ExtTreeMap String Binding)
    (name : String) :
    (values.foldl (fun m (name, v) => m.insert name { value? := some v }) m)[name]? =
      ((given values name).map fun v => ({ value? := some v } : Binding)).or m[name]? := by
  induction values generalizing m with
  | nil => simp [given]
  | cons b values ih =>
    obtain ⟨n, v⟩ := b
    simp only [List.foldl_cons]
    rw [ih, Std.ExtTreeMap.getElem?_insert]
    by_cases same : n = name
    · subst same
      cases found : values.reverse.find? (fun b => b.1 = n) <;>
        simp [given, List.find?_append, found]
    · cases found : values.reverse.find? (fun b => b.1 = name) <;>
        simp [given, List.find?_append, found, same]

theorem local?_enter_fresh (s : Store) (parent : ScopeId) (values : List (String × Expr))
    (name : String) :
    (s.enter parent values).2.local? s.fresh name =
      (given values name).map fun v => ({ value? := some v } : Binding) := by
  simp [local?, enter, fresh, getElem?_bind]

/-- A binding after a scope was entered is in the new scope, with a value that
was given, or it is one of before. -/
theorem local?_enter_cases {parent : ScopeId} {values : List (String × Expr)} {b : Binding}
    (h : (s.enter parent values).2.local? id name = some b) :
    (id = s.fresh ∧ ∃ v, (name, v) ∈ values ∧ b = { value? := some v }) ∨
      s.Has id ∧ s.local? id name = some b := by
  by_cases has : s.Has id
  · rw [local?_enter s parent values has] at h
    exact .inr ⟨has, h⟩
  · have new : id = s.fresh := by
      by_cases new : id = s.fresh
      · exact new
      · have outside : ¬ (s.enter parent values).2.Has id := by simp [has_enter, has, new]
        rw [local?_eq_none outside] at h
        cases h
    subst new
    rw [local?_enter_fresh, Option.map_eq_some_iff] at h
    obtain ⟨v, holds, rfl⟩ := h
    obtain ⟨⟨n, v'⟩, found, rfl⟩ := Option.map_eq_some_iff.mp holds
    have same : n = name := by simpa using List.find?_some found
    subst same
    exact .inl ⟨rfl, v', by simpa using List.mem_of_find?_eq_some found, rfl⟩

/-- The root is on the chain of every scope that leads to it. -/
theorem rootOf_mem_chain (s : Store) (id : ScopeId) : s.rootOf id ∈ s.chain id := by
  unfold rootOf chain
  cases last : (s.outer id).getLast? with
  | none => simp
  | some around => simpa using .inr (List.mem_of_getLast? last)

/-- The scope that an assignment goes to is on the chain. -/
theorem assignee_mem_chain (s : Store) (id : ScopeId) (name : String) :
    s.assignee id name ∈ s.chain id := by
  unfold assignee
  cases found : (s.chain id).find? fun i => (s.localValue? name i).isSome with
  | none => exact rootOf_mem_chain s id
  | some around => exact List.mem_of_find?_eq_some found

end Store

/-- The name that a request defines in the root, and how its binding changes. -/
def Effect.definition? : Effect → Option (String × (Binding → Binding))
  | defineGlobal name v => some (name, Binding.withValue v)
  | defineConstant name v => some (name, Binding.withConstant v)
  | defineFunction name f => some (name, Binding.withFunction f)
  | _ => none

/-- What a request may make of a store. -/
inductive Store.Revised (s : Store) : Effect → Store → Prop where
  | same (x : Effect) : Revised s x s
  | assigned (scope : ScopeId) (name : String) (v : Expr)
      (free : s.isLocked (s.assignee scope name) name = false) :
      Revised s (.assign scope name v) (s.change (s.assignee scope name) name (Binding.withValue v))
  | defined {x : Effect} {name : String} {f : Binding → Binding}
      (definition : x.definition? = some (name, f)) (free : s.isLocked root name = false) :
      Revised s x (s.change root name f)
  | entered (parent : ScopeId) (bindings : List (String × Expr)) :
      Revised s (.enter parent bindings) (s.enter parent bindings).2

/-- No request loses a scope. -/
theorem Store.Revised.has {s s' : Store} {x : Effect} (h : s.Revised x s') {id : ScopeId}
    (there : s.Has id) : s'.Has id := by
  cases h with
  | same => exact there
  | assigned => exact (has_change _ _ _).mpr there
  | defined => exact (has_change _ _ _).mpr there
  | entered => exact (has_enter _ _ _).mpr (.inl there)

/-- A binding is changed, or it is read-only and nothing is. -/
theorem store_update (id : ScopeId) (name : String) (f : Binding → Binding) (m : Machine) :
    (finalMachine (Machine.update id name f m)).store = m.store ∨
      (m.store.isLocked id name = false ∧
        (finalMachine (Machine.update id name f m)).store = m.store.change id name f) := by
  unfold Machine.update
  cases locked : m.store.isLocked id name with
  | true => exact .inl rfl
  | false => exact .inr ⟨rfl, rfl⟩

/-- Every request revises the store in one of these ways. -/
theorem revised_perform (w : World) (x : Effect) (m : Machine) :
    m.store.Revised x (finalMachine (x.perform w m)).store := by
  cases x with
  | assign scope name v =>
    rcases store_update (m.store.assignee scope name) name (Binding.withValue v) m with
      h | ⟨free, h⟩
    · exact h ▸ .same _
    · exact h ▸ .assigned scope name v free
  | defineGlobal name v =>
    rcases store_update Store.root name (Binding.withValue v) m with h | ⟨free, h⟩
    · exact h ▸ .same _
    · exact h ▸ .defined rfl free
  | defineConstant name v =>
    rcases store_update Store.root name (Binding.withConstant v) m with h | ⟨free, h⟩
    · exact h ▸ .same _
    · exact h ▸ .defined rfl free
  | defineFunction name f =>
    rcases store_update Store.root name (Binding.withFunction f) m with h | ⟨free, h⟩
    · exact h ▸ .same _
    · exact h ▸ .defined rfl free
  | enter parent bindings => exact .entered parent bindings
  | file path =>
    have same : (finalMachine (Effect.perform w (.file path) m)).store = m.store := by
      simp only [Effect.perform]
      split <;> rfl
    exact same ▸ .same _
  | _ => exact .same _

end Lisp
