import Lisp.Proofs.Territory

/-!
# The shape of the scopes

Scopes form a tree below the root, and only the root holds anything but values: no
other scope has a function or a read-only name. An evaluation binds new names only
in the root and in scopes that it makes itself. All this holds of every store that
arises while expressions are evaluated one after the other, also in the middle of an
evaluation and after one that failed.

It follows that a name can always be bound in a scope other than the root, whatever
the name stands for outside. Binding the names of a new scope one by one is the same
as making the scope with all its bindings.
-/

namespace Lisp

/-- A binding as parameters and local variables have it. -/
structure Binding.IsPlain (b : Binding) : Prop where
  value : b.value?.isSome
  function : b.function? = none
  writable : b.readOnly = false

namespace Store

/-- A store in which every scope leads to the root, and only the root holds
functions and constants. -/
structure Coherent (s : Store) : Prop where
  has_root : s.Has root
  outer_root : s.outer root = []
  below : ∀ id, s.Has id → id ≠ root →
    ∃ parent, parent.index < id.index ∧ s.outer id = s.chain parent
  plain : ∀ id name b, id ≠ root → s.local? id name = some b → b.IsPlain

/-- Whether the same names are bound in every scope but the root that was there
before. -/
def SameNames (s s' : Store) : Prop :=
  ∀ id, id ≠ root → s.Has id → ∀ name, (s'.local? id name).isSome = (s.local? id name).isSome

theorem SameNames.refl (s : Store) : s.SameNames s := fun _ _ _ _ => rfl

theorem SameNames.trans {s s' s'' : Store} (first : s.SameNames s') (second : s'.SameNames s'')
    (has : ∀ id, s.Has id → s'.Has id) : s.SameNames s'' := fun id ne here name =>
  (second id ne (has id here) name).trans (first id ne here name)

variable {s s' : Store} {id : ScopeId} {name : String}

/-- What holds of the root, and of each scope if it holds of the one directly around
it, holds of every scope. -/
theorem Coherent.induct (h : s.Coherent) {motive : ScopeId → Prop} (top : motive root)
    (step : ∀ id parent, s.Has id → id ≠ root → s.outer id = s.chain parent →
      motive parent → motive id) (has : s.Has id) : motive id := by
  -- A parent is older than its child, so the induction is on the index of the scope.
  obtain ⟨n⟩ := id
  induction n using Nat.strongRecOn with
  | ind n ih =>
    by_cases outermost : (⟨n⟩ : ScopeId) = root
    · rwa [outermost]
    · obtain ⟨parent, older, around⟩ := h.below ⟨n⟩ has outermost
      have holds := ih parent.index older (Nat.lt_trans older has)
      exact step ⟨n⟩ parent has outermost around holds

/-- The outermost scope around any scope is the root. -/
theorem Coherent.rootOf (h : s.Coherent) (has : s.Has id) : s.rootOf id = root := by
  refine h.induct (motive := fun id => s.rootOf id = root) ?_ ?_ has
  · rw [Store.rootOf, h.outer_root]
    rfl
  · intro id parent _ _ around outermost
    calc s.rootOf id = (s.chain parent).getLast?.getD id := by rw [Store.rootOf, around]
      _ = s.rootOf parent := by rw [chain, List.getLast?_cons, Option.getD_some, Store.rootOf]
      _ = root := outermost

/-- An assignment goes to the root or to a scope where the name has a value. -/
theorem Coherent.assignee (h : s.Coherent) (has : s.Has id) (name : String) :
    s.assignee id name = root ∨ ∃ v, s.localValue? name (s.assignee id name) = some v := by
  unfold Store.assignee
  cases found : (s.chain id).find? fun i => (s.localValue? name i).isSome with
  | none => exact .inl (h.rootOf has)
  | some target => exact .inr (Option.isSome_iff_exists.mp (by simpa using List.find?_some found))

/-- A change of a binding leaves the tree of scopes as it is. -/
theorem Coherent.change (h : s.Coherent) {target : ScopeId} {f : Binding → Binding}
    (plain : ∀ id n b, id ≠ root → (s.change target name f).local? id n = some b → b.IsPlain) :
    (s.change target name f).Coherent where
  has_root := (has_change target name f).mpr h.has_root
  outer_root := by rw [outer_change, h.outer_root]
  below id has ne := by
    obtain ⟨parent, older, around⟩ := h.below id ((has_change target name f).mp has) ne
    exact ⟨parent, older, by simpa [chain] using around⟩
  plain := plain

/-- A change of the root leaves the other scopes alone. -/
theorem Coherent.change_root (h : s.Coherent) (name : String) (f : Binding → Binding) :
    (s.change root name f).Coherent ∧ s.SameNames (s.change root name f) := by
  have other : ∀ id, id ≠ root → ∀ n, (s.change root name f).local? id n = s.local? id n :=
    fun id ne n => local?_change_of_ne ne name f n
  refine ⟨h.change fun id n b ne found => ?_, fun id ne _ n => by rw [other id ne n]⟩
  rw [other id ne n] at found
  exact h.plain id n b ne found

/-- Another value for a name that has one keeps the shape and the names. -/
theorem Coherent.change_value (h : s.Coherent) {target : ScopeId} (ne : target ≠ root)
    {old : Expr} (holds : s.localValue? name target = some old) (v : Expr) :
    (s.change target name (Binding.withValue v)).Coherent ∧
      s.SameNames (s.change target name (Binding.withValue v)) := by
  obtain ⟨b, found, value⟩ := Option.bind_eq_some_iff.mp holds
  have has : s.Has target := (holds_of_localValue? holds).has
  have plain := h.plain target name b ne found
  refine ⟨h.change fun id n b' ne' found' => ?_, ?_⟩
  · rcases local?_change_cases found' with ⟨rfl, rfl, _, rfl⟩ | before
    · rw [found]
      exact ⟨rfl, plain.function, plain.writable⟩
    · exact h.plain id n b' ne' before
  · intro id ne' there n
    by_cases here : id = target ∧ n = name
    · obtain ⟨rfl, rfl⟩ := here
      rw [local?_change_self has, found]
      rfl
    · rw [local?_change_elsewhere here]

/-- A new scope below one that there is keeps the shape and the names. -/
theorem Coherent.enter (h : s.Coherent) {parent : ScopeId} (has : s.Has parent)
    (values : List (String × Expr)) :
    (s.enter parent values).2.Coherent ∧ s.SameNames (s.enter parent values).2 := by
  have old : ∀ id, s.Has id → (s.enter parent values).2.chain id = s.chain id := fun id there => by
    rw [chain, outer_enter s parent values there, chain]
  refine ⟨⟨?_, ?_, ?_, ?_⟩, fun id _ there n => by rw [local?_enter s parent values there]⟩
  · exact (has_enter s parent values).mpr (.inl h.has_root)
  · rw [outer_enter s parent values h.has_root, h.outer_root]
  · intro id there ne
    rcases (has_enter s parent values).mp there with before | rfl
    · obtain ⟨around, older, chain⟩ := h.below id before ne
      rw [outer_enter s parent values before, chain, ← old around (Nat.lt_trans older before)]
      exact ⟨around, older, rfl⟩
    · rw [outer_enter_fresh, ← old parent has]
      exact ⟨parent, has, rfl⟩
  · intro id n b ne found
    rcases local?_enter_cases found with ⟨rfl, v, _, rfl⟩ | ⟨_, before⟩
    · exact ⟨rfl, rfl, rfl⟩
    · exact h.plain id n b ne before

/-- So does an assignment, from any scope and of any value. -/
theorem Coherent.assign (h : s.Coherent) (has : s.Has id) (name : String) (v : Expr) :
    (s.change (s.assignee id name) name (Binding.withValue v)).Coherent ∧
      s.SameNames (s.change (s.assignee id name) name (Binding.withValue v)) := by
  by_cases top : s.assignee id name = root
  · rw [top]
    exact h.change_root name _
  · obtain ⟨old, holds⟩ := (h.assignee has name).resolve_left top
    exact h.change_value top holds v

/-- A request about scopes that there are keeps the shape and the names. -/
theorem Next.coherent (next : s.Next Set.univ s') (h : s.Coherent) :
    s'.Coherent ∧ s.SameNames s' := by
  obtain ⟨x, within, revised⟩ := next
  cases revised with
  | same => exact ⟨h, .refl s⟩
  | assigned scope name v free => exact h.assign within.1.2 name v
  | defined definition free => exact h.change_root _ _
  | entered parent bindings => exact h.enter within.1.2 bindings

/-- Whether a scope, and an expression to be evaluated in it, speak only of scopes
that there are. -/
structure Admits (s : Store) (scope : ScopeId) (e : Expr) : Prop where
  scope : s.Has scope
  captures : ∀ id, e.Captures id → s.Has id

/-- The stores that arise, at any moment, while expressions are evaluated one after
the other, beginning with the builtin library. Each evaluation may have a world of
its own, as long as no function is registered in it, and may begin with any depth
of calls, counters and trace. -/
inductive Reached : Store → Prop where
  | library : Reached Store.withBuiltins
  | during {w : World} {m : Machine} {scope : ScopeId} {e : Expr} {c : Config}
      (library : w.registered = #[]) (before : Reached m.store) (admits : m.store.Admits scope e)
      (steps : Config.Reaches w ⟨.eval scope e, [], m⟩ c) : Reached c.machine.store

/-- The store of the builtin library: nothing but a root, which holds no closures. -/
structure IsLibrary (s : Store) : Prop where
  size : s.scopes.size = 1
  outer : s.outer root = []
  held : ∀ id name v, s.Holds id name v → v.captured = ∅

theorem isLibrary_empty : IsLibrary empty where
  size := rfl
  outer := rfl
  held id name v holds := by
    obtain ⟨b, found, _⟩ := holds
    obtain ⟨n⟩ := id
    cases n <;> simp [empty, local?] at found

theorem IsLibrary.install (h : s.IsLibrary) (name : String) (id : ObjectId) (op : Builtin) :
    (s.change root name
      (Binding.withFunction (.function (.object id (.builtin op))))).IsLibrary where
  size := by simpa [change] using h.size
  outer := by rw [outer_change, h.outer]
  held scope n v holds := by
    obtain ⟨b, found, slot⟩ := holds
    rcases local?_change_cases found with ⟨rfl, rfl, _, rfl⟩ | before
    · rcases slot with value | function
      · cases there : s.local? root n with
        | none => simp [there, Binding.withFunction] at value
        | some old => exact h.held root n v ⟨old, there, .inl (by rwa [there] at value)⟩
      · rw [← Option.some.inj function, Sexp.captured_function]
        simp [Code.captured, Code.scope?, Code.body, Function.code]
    · exact h.held scope n v ⟨b, before, slot⟩

theorem isLibrary_withBuiltins : IsLibrary withBuiltins := by
  refine List.foldlRecOn _ _ isLibrary_empty fun s h op _ => ?_
  exact List.foldlRecOn _ _ h fun s h name _ => h.install name _ _

theorem IsLibrary.eq_root (h : s.IsLibrary) (has : s.Has id) : id = root := by
  obtain ⟨n⟩ := id
  have first : n < s.scopes.size := has
  rw [h.size, Nat.lt_one_iff] at first
  rw [first, root]

theorem IsLibrary.coherent (h : s.IsLibrary) : s.Coherent where
  has_root := by simp [Has, root, h.size]
  outer_root := h.outer
  below id has ne := absurd (h.eq_root has) ne
  plain id name b ne found := by
    have outside : ¬ s.Has id := fun has => ne (h.eq_root has)
    rw [local?_eq_none outside] at found
    cases found

theorem IsLibrary.closed (h : s.IsLibrary) : s.Closed (s.territory Set.univ) where
  root := ⟨trivial, h.coherent.has_root⟩
  has _ there := there.2
  outer id there around mem := by
    rw [h.eq_root there.2, h.outer] at mem
    cases mem
  held id _ name v holds := by simp [h.held id name v holds]

/-- An evaluation that is about to begin stays among the scopes that there are. -/
theorem Admits.within {scope : ScopeId} {e : Expr} {m : Machine} {region : Set ScopeId}
    (unmade : ∀ id, ¬ m.store.Has id → id ∈ region)
    (closed : m.store.Closed (m.store.territory region)) (admits : m.store.Admits scope e)
    (there : scope ∈ region) (known : ∀ id, e.Captures id → id ∈ region) :
    Config.Within region ⟨.eval scope e, [], m⟩ where
  unmade := unmade
  closed := closed
  task := ⟨⟨there, admits.scope⟩,
    fun id captured => ⟨known id captured, admits.captures id captured⟩⟩
  pending _ mem := nomatch mem

/-- A run among the scopes that there are keeps their shape and the names bound in
them. -/
theorem Coherent.reaches {w : World} {c d : Config} (library : w.registered = #[])
    (h : c.machine.store.Coherent) (within : c.Within Set.univ) (steps : Config.Reaches w c d) :
    d.machine.store.Coherent ∧ c.machine.store.SameNames d.machine.store := by
  induction steps with
  | refl => exact ⟨h, .refl _⟩
  | tail before next ih =>
    obtain ⟨coherent, names⟩ := ih
    obtain ⟨within', extended⟩ := within.reaches library before
    obtain ⟨coherent', names'⟩ := (within'.step library next).2.coherent coherent
    exact ⟨coherent', names.trans names' extended.has⟩

/-- Every store that arises has the shape of scopes, and its closures capture scopes
that there are. -/
theorem Reached.coherent_closed (h : s.Reached) : s.Coherent ∧ s.Closed (s.territory Set.univ) := by
  induction h with
  | library => exact ⟨isLibrary_withBuiltins.coherent, isLibrary_withBuiltins.closed⟩
  | during library _ admits steps ih =>
    have within := admits.within (fun _ _ => trivial) ih.2 trivial fun _ _ => trivial
    exact ⟨(ih.1.reaches library within steps).1, (within.reaches library steps).1.closed⟩

/-- The scope directly around another. -/
def Parent (s : Store) (id parent : ScopeId) : Prop := s.parent? id = some parent

theorem parent_of_outer {parent : ScopeId} (around : s.outer id = s.chain parent) :
    s.Parent id parent := by
  simp [Parent, parent?, around, chain]

/-- Parents are older. -/
theorem Coherent.older (h : s.Coherent) {parent : ScopeId} (step : s.Parent id parent) :
    parent.index < id.index := by
  have nonempty : s.outer id ≠ [] := by
    intro none
    simp [Parent, parent?, none] at step
  have has : s.Has id := by
    by_contra no
    exact nonempty (outer_eq_nil no)
  have ne : id ≠ root := by
    rintro rfl
    exact nonempty h.outer_root
  obtain ⟨around, older, chain⟩ := h.below id has ne
  have same : around = parent := Option.some.inj ((parent_of_outer chain).symm.trans step)
  exact same ▸ older

theorem Coherent.leads_to_root (h : s.Coherent) (has : s.Has id) :
    Relation.ReflTransGen s.Parent id root := by
  refine h.induct (motive := fun id => Relation.ReflTransGen s.Parent id root) .refl ?_ has
  exact fun id parent _ _ around leads => .head (parent_of_outer around) leads

theorem Coherent.no_cycle (h : s.Coherent) (id : ScopeId) : ¬ Relation.TransGen s.Parent id id := by
  have older : ∀ a b, Relation.TransGen s.Parent a b → b.index < a.index := by
    intro a b path
    induction path with
    | single step => exact h.older step
    | tail _ step ih => exact Nat.lt_trans (h.older step) ih
  exact fun cycle => Nat.lt_irrefl _ (older id id cycle)

/-- Binds names to values in a scope, one after the other. -/
def defineAll (s : Store) (id : ScopeId) : List (String × Expr) → Except Error Store
  | [] => .ok s
  | (name, v) :: rest => do
    let s ← s.define id name v
    s.defineAll id rest

theorem modify_push {α : Type} (xs : Array α) (x : α) (f : α → α) :
    (xs.push x).modify xs.size f = xs.push (f x) := by
  refine Array.ext (by simp) fun i inside _ => ?_
  rw [Array.size_modify, Array.size_push] at inside
  rw [Array.getElem_modify, Array.getElem_push, Array.getElem_push]
  by_cases last : i < xs.size
  · rw [dif_pos last, dif_pos last, if_neg (by omega)]
  · rw [dif_neg last, dif_neg last, if_pos (by omega)]

/-- Whether the bindings of a scope are values and nothing else. -/
def AreValues (bindings : Std.ExtTreeMap String Binding) : Prop :=
  ∀ (n : String) (b : Binding), bindings[n]? = some b → ∃ v, b = { value? := some v }

theorem AreValues.insert {bindings : Std.ExtTreeMap String Binding} (h : AreValues bindings)
    (name : String) (v : Expr) : AreValues (bindings.insert name { value? := some v }) := by
  intro n b found
  rw [Std.ExtTreeMap.getElem?_insert] at found
  split at found
  · exact ⟨v, (Option.some.inj found).symm⟩
  · exact h n b found

/-- A last scope with given bindings. -/
def withLast (s : Store) (parent : ScopeId) (bindings : Std.ExtTreeMap String Binding) : Store :=
  ⟨s.scopes.push ⟨s.chain parent, bindings⟩⟩

theorem define_withLast (s : Store) (parent : ScopeId) {bindings : Std.ExtTreeMap String Binding}
    (values : AreValues bindings) (name : String) (v : Expr) :
    (s.withLast parent bindings).define s.fresh name v =
      .ok (s.withLast parent (bindings.insert name { value? := some v })) := by
  have there : (s.withLast parent bindings).local? s.fresh name = bindings[name]? := by
    simp [withLast, local?, fresh]
  have free : (s.withLast parent bindings).isLocked s.fresh name = false := by
    rw [isLocked, there]
    cases found : bindings[name]? with
    | none => rfl
    | some b =>
      obtain ⟨v, rfl⟩ := values name b found
      rfl
  have changed : bindings.alter name (fun b? => some (Binding.withValue v (b?.getD {}))) =
      bindings.insert name { value? := some v } := by
    refine Std.ExtTreeMap.ext_getElem? fun n => ?_
    rw [Std.ExtTreeMap.getElem?_alter, Std.ExtTreeMap.getElem?_insert]
    split
    · cases found : bindings[name]? with
      | none => rfl
      | some b =>
        obtain ⟨v, rfl⟩ := values name b found
        rfl
    · rfl
  rw [define, update, free]
  simp only [change, withLast, fresh, modify_push, changed]
  rfl

theorem defineAll_withLast (s : Store) (parent : ScopeId) (values : List (String × Expr))
    {bindings : Std.ExtTreeMap String Binding} (plain : AreValues bindings) :
    (s.withLast parent bindings).defineAll s.fresh values =
      .ok (s.withLast parent
        (values.foldl (fun m (name, v) => m.insert name { value? := some v }) bindings)) := by
  induction values generalizing bindings with
  | nil => rfl
  | cons first values ih =>
    obtain ⟨name, v⟩ := first
    rw [defineAll, define_withLast s parent plain name v]
    exact ih (plain.insert name v)

/-- A scope with bindings is an empty scope in which they were made one after the
other; none of them is refused. -/
theorem defineAll_child (s : Store) (parent : ScopeId) (values : List (String × Expr)) :
    (s.child parent).2.defineAll (s.child parent).1 values = .ok (s.enter parent values).2 :=
  defineAll_withLast s parent values fun n b found => by simp at found

/-- No name is read-only in a scope other than the root. -/
theorem Coherent.isLocked_eq_false (h : s.Coherent) (ne : id ≠ root) (name : String) :
    s.isLocked id name = false := by
  rw [isLocked]
  cases found : s.local? id name with
  | none => rfl
  | some b => exact (h.plain id name b ne found).writable

/-- In a scope other than the root every name can be bound. -/
theorem Coherent.define_ok (h : s.Coherent) (ne : id ≠ root) (name : String) (v : Expr) :
    s.define id name v = .ok (s.change id name (Binding.withValue v)) := by
  rw [define, update, h.isLocked_eq_false ne]
  rfl

end Store

theorem machine_after (r : EStateM.Result Error Machine Expr) :
    (Config.after [] r .value).machine = finalMachine r := by
  cases r <;> rfl

/-- The steps of an evaluation lead to its end. -/
theorem World.reaches_eval (w : World) (scope : ScopeId) (e : Expr) (m : Machine) :
    Config.Reaches w ⟨.eval scope e, [], m⟩ (Config.after [] (w.eval scope e m) .value) :=
  ((computes_evaluate (computes_applyWithin w _) scope e).1 [] m rfl).1

/-- The store that an evaluation leaves behind, with a value or with an error. -/
theorem Store.Reached.eval {w : World} {m : Machine} {scope : ScopeId} {e : Expr}
    (library : w.registered = #[]) (reached : m.store.Reached) (admits : m.store.Admits scope e) :
    (finalMachine (w.eval scope e m)).store.Reached := by
  rw [← machine_after]
  exact .during library reached admits (w.reaches_eval scope e m)

namespace Store

/-- In every store that arises, every scope leads through its parents to the root and
none leads back to itself, and what the scopes other than the root bind are values.
An evaluation leaves the names of these scopes as they were, unless it made the scope
itself. So a name can be bound in each of them, and binding the names of a new scope
one after the other succeeds and is what entering the scope does. -/
theorem Reached.scope_discipline {s : Store} (reached : s.Reached) :
    (∀ id, s.Has id → Relation.ReflTransGen s.Parent id root) ∧
      (∀ id, ¬ Relation.TransGen s.Parent id id) ∧
      (∀ id name b, id ≠ root → s.local? id name = some b → b.IsPlain) ∧
      (∀ (w : World) (scope : ScopeId) (e : Expr) (m : Machine), w.registered = #[] → m.store = s →
        s.Admits scope e → s.SameNames (finalMachine (w.eval scope e m)).store) ∧
      (∀ id name v, id ≠ root → ∃ s', s.define id name v = .ok s') ∧
      ∀ parent values,
        (s.child parent).2.defineAll (s.child parent).1 values = .ok (s.enter parent values).2 := by
  obtain ⟨coherent, closed⟩ := reached.coherent_closed
  refine ⟨fun id => coherent.leads_to_root, coherent.no_cycle, coherent.plain, ?_, ?_,
    s.defineAll_child⟩
  · rintro w scope e m library rfl admits
    have within := admits.within (fun _ _ => trivial) closed trivial fun _ _ => trivial
    rw [← machine_after]
    exact (coherent.reaches library within (w.reaches_eval scope e m)).2
  · exact fun id name v ne => ⟨_, coherent.define_ok ne name v⟩

end Store

/-- The expression that a text holds; `nil` if it holds none. -/
def expressionOf (text : String) : Expr :=
  match Datum.ofText? text with
  | .ok d => (d.place 0).1
  | .error _ => .nil

/-- What was read captures nothing, so that it can be evaluated anywhere. -/
theorem captured_expressionOf (text : String) : (expressionOf text).captured = ∅ := by
  unfold expressionOf
  split
  · exact Datum.captured_place _ 0
  · exact Sexp.captured_nil

theorem Store.admits_expressionOf {s : Store} {scope : ScopeId} (has : s.Has scope)
    (text : String) : s.Admits scope (expressionOf text) :=
  ⟨has, fun id captures => by
    have inside : id ∈ (expressionOf text).captured := captures
    rw [captured_expressionOf] at inside
    exact inside.elim⟩

/-- What is left of an evaluation that binds a global constant as a local variable. -/
def Store.withLocalConstant : Store :=
  (finalMachine (World.eval {} Store.root
    (expressionOf "(progn (defconstant pi 3) (let ((pi 1)) (setq pi 2)))") Machine.initial)).store

theorem Store.withLocalConstant_discipline :
    withLocalConstant.Reached ∧ withLocalConstant.Has ⟨1⟩ ∧
      withLocalConstant.isConstant root "pi" = true ∧
      Relation.ReflTransGen withLocalConstant.Parent ⟨1⟩ root ∧
      ∃ s', withLocalConstant.define ⟨1⟩ "pi" .nil = .ok s' := by
  have reached : withLocalConstant.Reached :=
    .eval rfl .library (admits_expressionOf isLibrary_withBuiltins.coherent.has_root _)
  have facts : 1 < withLocalConstant.scopes.size ∧
      withLocalConstant.isConstant root "pi" = true := by decide +kernel
  obtain ⟨has, constant⟩ := facts
  obtain ⟨leads, _, _, _, binds, _⟩ := reached.scope_discipline
  exact ⟨reached, has, constant, leads ⟨1⟩ has, binds ⟨1⟩ "pi" .nil (by decide)⟩

end Lisp
