import Lisp.Proofs.ScopeDiscipline

/-!
# What a name stands for

Lookups in a store whose scopes have their proper shape. A function is always the
one of the root, from whichever scope it is looked for. A value is looked for in a
new scope among the bindings given to it, and then from the scope below which it was
made; an assignment in a new scope goes the same way. Whatever happens in other
scopes, a scope keeps the values that it holds.
-/

namespace Lisp.Store

variable {s : Store} {id parent : ScopeId} {name : String}

/-- The scopes around a scope are there. -/
theorem Coherent.has_chain (h : s.Coherent) (has : s.Has id) :
    ∀ around ∈ s.chain id, s.Has around := by
  refine h.induct (motive := fun id => ∀ around ∈ s.chain id, s.Has around) ?_ ?_ has
  · rw [chain, h.outer_root]
    exact List.forall_mem_singleton.mpr h.has_root
  · intro id parent has _ around outside
    rw [chain, around]
    exact List.forall_mem_cons.mpr ⟨has, outside⟩

/-- A function is looked for past all scopes but the root. -/
theorem Coherent.function?_eq (h : s.Coherent) (has : s.Has id) (name : String) :
    s.function? id name = s.localFunction? name root := by
  refine h.induct (motive := fun id => s.function? id name = s.localFunction? name root) ?_ ?_ has
  · rw [Store.function?, chain, h.outer_root, List.findSome?_cons]
    cases s.localFunction? name root <;> rfl
  · intro id parent _ ne around found
    have passed : s.localFunction? name id = none := by
      rw [localFunction?, Option.bind_eq_none_iff]
      exact fun b binding => (h.plain id name b ne binding).function
    calc s.function? id name = (s.chain parent).findSome? (s.localFunction? name) := by
          rw [Store.function?, chain, List.findSome?_cons, passed, around]
      _ = s.localFunction? name root := found

/-- A value in the scope itself is the nearest. -/
theorem value?_of_localValue? {v : Expr} (h : s.localValue? name id = some v) :
    s.value? id name = some v := by
  rw [value?, chain, List.findSome?_cons, h]

theorem localValue?_enter (has : s.Has id) (parent : ScopeId) (values : List (String × Expr)) :
    (s.enter parent values).2.localValue? name id = s.localValue? name id := by
  rw [localValue?, local?_enter s parent values has, localValue?]

theorem localValue?_enter_fresh (parent : ScopeId) (values : List (String × Expr)) :
    (s.enter parent values).2.localValue? name s.fresh = given values name := by
  rw [localValue?, local?_enter_fresh]
  cases given values name <;> rfl

theorem findSome?_congr {α β : Type} {l : List α} {f g : α → Option β}
    (same : ∀ a ∈ l, f a = g a) : l.findSome? f = l.findSome? g := by
  induction l with
  | nil => rfl
  | cons a l ih =>
    rw [List.findSome?_cons, List.findSome?_cons, same a List.mem_cons_self,
      ih fun b mem => same b (List.mem_cons_of_mem a mem)]

/-- A value in a new scope is a given one, or what the name stands for below it. -/
theorem Coherent.value?_enter (h : s.Coherent) (has : s.Has parent) (values : List (String × Expr))
    (name : String) :
    (s.enter parent values).2.value? s.fresh name =
      (given values name).or (s.value? parent name) := by
  have around : (s.chain parent).findSome? ((s.enter parent values).2.localValue? name) =
      s.value? parent name := by
    rw [value?]
    exact findSome?_congr fun id mem => localValue?_enter (h.has_chain has id mem) parent values
  rw [value?, chain, outer_enter_fresh, List.findSome?_cons, localValue?_enter_fresh, around]
  cases given values name <;> rfl

/-- An assignment in a new scope that does not bind the name goes to the scope below,
if that holds a value. -/
theorem assignee_enter (has : s.Has parent) {values : List (String × Expr)}
    (passed : given values name = none) (holds : (s.localValue? name parent).isSome) :
    (s.enter parent values).2.assignee s.fresh name = parent := by
  have next : ((s.enter parent values).2.localValue? name parent).isSome := by
    rwa [localValue?_enter has]
  have first : ((s.enter parent values).2.localValue? name s.fresh).isSome = false := by
    rw [localValue?_enter_fresh, passed]
    rfl
  rw [assignee, chain, outer_enter_fresh, chain, List.find?_cons_of_neg (by simp [first]),
    List.find?_cons_of_pos (by simpa using next)]
  rfl

theorem localValue?_change_of_ne {other : ScopeId} (ne : other ≠ id) (name : String)
    (f : Binding → Binding) (name' : String) :
    (s.change id name f).localValue? name' other = s.localValue? name' other := by
  rw [localValue?, local?_change_of_ne ne, localValue?]

theorem localValue?_change_self (has : s.Has id) (name : String) (v : Expr) :
    (s.change id name (Binding.withValue v)).localValue? name id = some v := by
  rw [localValue?, local?_change_self has]
  rfl

theorem localFunction?_change_self (has : s.Has id) (name : String) (f : Expr) :
    (s.change id name (Binding.withFunction f)).localFunction? name id = some f := by
  rw [localFunction?, local?_change_self has]
  rfl

/-- Only the definition of a function changes what function a name stands for. -/
theorem localFunction?_change {f : Binding → Binding} (keeps : ∀ b, (f b).function? = b.function?)
    (id : ScopeId) (name : String) (other : ScopeId) (name' : String) :
    (s.change id name f).localFunction? name' other = s.localFunction? name' other := by
  by_cases here : other = id ∧ name' = name
  · obtain ⟨rfl, rfl⟩ := here
    by_cases has : s.Has other
    · rw [localFunction?, local?_change_self has, localFunction?]
      cases s.local? other name' with
      | none => exact keeps {}
      | some b => exact keeps b
    · rw [localFunction?, localFunction?, local?_eq_none has,
        local?_eq_none (by rwa [has_change])]
  · rw [localFunction?, local?_change_elsewhere here, localFunction?]

/-- Whether the name of a builtin stands for it, as it does until it is redefined. -/
def Names (s : Store) (op : Builtin) : Prop :=
  ∃ id, s.function? root op.name = some (.function (.object id (.builtin op)))

/-- Whether an expression is the function of a builtin. -/
def isBuiltin (op : Builtin) : Expr → Bool
  | .function (.object _ (.builtin op')) => op' = op
  | _ => false

/-- In the library every builtin is known by its name. -/
theorem names_withBuiltins (op : Builtin) : withBuiltins.Names op := by
  have all : ∀ op ∈ Builtin.all, (withBuiltins.function? root op.name).any (isBuiltin op) := by
    decide +kernel
  obtain ⟨f, found, isOp⟩ := (Option.any_eq_true _ _).mp (all op op.mem_all)
  unfold isBuiltin at isOp
  split at isOp
  · obtain rfl := of_decide_eq_true isOp
    exact ⟨_, found⟩
  · cases isOp

/-- A builtin that its name stands for is found from every scope. -/
theorem Names.function? {op : Builtin} (names : s.Names op) (h : s.Coherent) (has : s.Has id) :
    ∃ f, f.code = .builtin op ∧ s.function? id op.name = some (.function f) := by
  obtain ⟨object, found⟩ := names
  refine ⟨.object object (.builtin op), rfl, ?_⟩
  rw [h.function?_eq has, ← found, h.function?_eq h.has_root]

/-- What leaves the functions of the root alone leaves the names of builtins alone. -/
theorem Names.of_localFunction? {s' : Store} {op : Builtin} (names : s.Names op) (h : s.Coherent)
    (h' : s'.Coherent)
    (same : s'.localFunction? op.name root = s.localFunction? op.name root) : s'.Names op := by
  obtain ⟨object, found⟩ := names
  refine ⟨object, ?_⟩
  rw [h'.function?_eq h'.has_root, same, ← h.function?_eq h.has_root, found]

theorem Names.enter {op : Builtin} (names : s.Names op) (h : s.Coherent) (has : s.Has parent)
    (values : List (String × Expr)) : (s.enter parent values).2.Names op := by
  refine names.of_localFunction? h (h.enter has values).1 ?_
  rw [localFunction?, local?_enter s parent values h.has_root, localFunction?]

theorem Names.change {op : Builtin} (names : s.Names op) (h : s.Coherent) {f : Binding → Binding}
    (h' : (s.change id name f).Coherent)
    (keeps : name ≠ op.name ∨ ∀ b, (f b).function? = b.function?) :
    (s.change id name f).Names op := by
  refine names.of_localFunction? h h' ?_
  rcases keeps with other | keeps
  · rw [localFunction?, local?_change_name other.symm, localFunction?]
  · exact localFunction?_change keeps id name root op.name

end Lisp.Store
