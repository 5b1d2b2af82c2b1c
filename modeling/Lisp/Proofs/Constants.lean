import Lisp.Proofs.ScopeDiscipline

/-!
# Constants

Through the identity of a scope a store can be asked for six things: a new scope below
that scope, a value, a function or a constant for a name in it, an assignment to a name,
and a function for a name in the root. All of them work in place. A change of a binding
first makes an empty one if there is none, and only then looks whether it is read-only.
An assignment looks on its own, scope by scope, and only where the name has a value.

So it has to be shown that a failure leaves nothing behind, and that no binding is
read-only without a value. What is read-only then stays as it is, whatever is asked for
later and through whichever scope. An evaluation too is a sequence of such operations, as
far as the store is concerned.
-/

namespace Lisp

open Config

namespace Store

/-- What a store can be asked for through the identity of a scope. -/
inductive Operation where
  | child (scope : ScopeId)
  | define (scope : ScopeId) (name : String) (value : Expr)
  | defineFunction (scope : ScopeId) (name : String) (function : Expr)
  | defineConstant (scope : ScopeId) (name : String) (value : Expr)
  | assign (scope : ScopeId) (name : String) (value : Expr)
  | assignFunction (scope : ScopeId) (name : String) (function : Expr)

/-- The store that an operation makes of another, or its error. -/
def Operation.outcome (s : Store) : Operation → Except Error Store
  | child scope => .ok (s.child scope).2
  | define scope name v => s.define scope name v
  | defineFunction scope name f => s.defineFunction scope name f
  | defineConstant scope name v => s.defineConstant scope name v
  | assign scope name v => s.assign scope name v
  | assignFunction scope name f => s.assignFunction scope name f

/-- A computation that changes a store as it goes on, and may fail in between. -/
abbrev Edit := EStateM Error Store Unit

/-- Changes a binding, an empty one made beforehand if there is none. One that is
read-only is refused. -/
def edit (id : ScopeId) (name : String) (f : Binding → Binding) : Edit := do
  modify fun s => s.change id name fun b => b
  if (← get).isLocked id name then throw (.runtime (.constantModified name))
  modify fun s => s.change id name f

/-- Assigns to a name in a scope where it has a value, and goes on to the scopes around
it where it has none. The name is bound in the last one. -/
def assignAlong (name : String) (v : Expr) (here : ScopeId) (outer : List ScopeId) :
    Edit := fun s =>
  if (s.localValue? name here).isSome then
    if s.isLocked here name then .error (.runtime (.constantModified name)) s
    else .ok () (s.change here name (Binding.withValue v))
  else match outer with
    | [] => edit here name (Binding.withValue v) s
    | around :: rest => assignAlong name v around rest s

/-- An operation, done in place. -/
def Operation.perform : Operation → Edit
  | child scope => modify fun s => (s.child scope).2
  | define scope name v => edit scope name (Binding.withValue v)
  | defineFunction scope name f => edit scope name (Binding.withFunction f)
  | defineConstant scope name v => edit scope name (Binding.withConstant v)
  | assign scope name v => fun s => assignAlong name v scope (s.outer scope) s
  | assignFunction scope name f => fun s => edit (s.rootOf scope) name (Binding.withFunction f) s

/-- The store that an operation leaves behind, also when it fails. -/
def after (s : Store) (op : Operation) : Store :=
  match op.perform s with
  | .ok _ s' => s'
  | .error _ s' => s'

def afterAll (s : Store) (ops : List Operation) : Store := ops.foldl after s

/-- The result of an outcome that, if it is an error, leaves the store as it was. -/
def orUnchanged (s : Store) : Except Error Store → EStateM.Result Error Store Unit
  | .ok s' => .ok () s'
  | .error e => .error e s

variable {s s' : Store} {id : ScopeId} {name : String}

section InPlace

theorem change_change (s : Store) (id : ScopeId) (name : String) (f g : Binding → Binding) :
    (s.change id name f).change id name g = s.change id name (g ∘ f) := by
  have twice : ∀ m : Std.ExtTreeMap String Binding,
      (m.alter name fun b? => some (f (b?.getD {}))).alter name (fun b? => some (g (b?.getD {}))) =
        m.alter name fun b? => some ((g ∘ f) (b?.getD {})) := by
    intro m
    refine Std.ExtTreeMap.ext_getElem? fun n => ?_
    simp only [Std.ExtTreeMap.getElem?_alter]
    by_cases here : compare name n = .eq <;> simp [here]
  rw [change, change, change, Store.mk.injEq]
  refine Array.ext (by simp) fun i _ _ => ?_
  by_cases here : id.index = i <;> simp [Array.getElem_modify, here, twice]

/-- Whether a name is read-only does not depend on whether an empty binding was made
for it. -/
theorem isLocked_change_self (s : Store) (id : ScopeId) (name : String) :
    (s.change id name fun b => b).isLocked id name = s.isLocked id name := by
  by_cases has : s.Has id
  · rw [isLocked, local?_change_self has, isLocked]
    cases s.local? id name <;> rfl
  · rw [isLocked, local?_eq_none (by rwa [has_change]), isLocked, local?_eq_none has]

/-- Where a name is read-only there is a binding, and no empty one is made. -/
theorem change_self_of_isLocked (locked : s.isLocked id name = true) :
    (s.change id name fun b => b) = s := by
  have same : ∀ scope, s.scopes[id.index]? = some scope →
      scope.bindings.alter name (fun b? => some (b?.getD {})) = scope.bindings := by
    intro scope there
    refine Std.ExtTreeMap.ext_getElem? fun n => ?_
    rw [Std.ExtTreeMap.getElem?_alter]
    split
    · rename_i here
      obtain rfl : name = n := Std.LawfulEqCmp.eq_of_compare here
      cases found : scope.bindings[name]? with
      | some b => rfl
      | none => simp [isLocked, local?, there, found] at locked
    · rfl
  rw [change, Store.mk.injEq]
  refine Array.ext (by simp) fun i inside _ => ?_
  rw [Array.getElem_modify]
  split
  · rename_i here
    subst here
    rw [same _ (Array.getElem?_eq_getElem _)]
  · rfl

/-- A change in place is the change of a binding, and leaves nothing behind if it is
refused. -/
theorem edit_eq (s : Store) (id : ScopeId) (name : String) (f : Binding → Binding) :
    edit id name f s = s.orUnchanged (s.update id name f) := by
  have made : edit id name f s =
      if s.isLocked id name then
        .error (.runtime (.constantModified name)) (s.change id name fun b => b)
      else .ok () ((s.change id name fun b => b).change id name f) := by
    have modified : ∀ (g : Store → Store) (rest : PUnit → Edit) (s : Store),
        (modify g >>= rest) s = rest ⟨⟩ (g s) := fun _ _ _ => rfl
    have got : ∀ (rest : Store → Edit) (s : Store), (get >>= rest) s = rest s s :=
      fun _ _ => rfl
    rw [← isLocked_change_self s id name, edit, modified, got]
    cases (s.change id name fun b => b).isLocked id name <;> rfl
  rw [made, update]
  cases locked : s.isLocked id name with
  | true => rw [change_self_of_isLocked locked]; rfl
  | false => rw [change_change]; rfl

/-- The check that an assignment makes on its own is that of a definition. -/
theorem orUnchanged_define (s : Store) (id : ScopeId) (name : String) (v : Expr) :
    s.orUnchanged (s.define id name v) =
      if s.isLocked id name then .error (.runtime (.constantModified name)) s
      else .ok () (s.change id name (Binding.withValue v)) := by
  rw [define, update]
  split <;> rfl

theorem assignAlong_eq (s : Store) (name : String) (v : Expr) (here : ScopeId)
    (outer : List ScopeId) :
    assignAlong name v here outer s = s.orUnchanged
      (s.define (((here :: outer).find? fun i => (s.localValue? name i).isSome).getD
        (outer.getLast?.getD here)) name v) := by
  induction outer generalizing here with
  | nil =>
    rw [assignAlong, List.find?_cons]
    cases (s.localValue? name here).isSome with
    | true => exact (orUnchanged_define s here name v).symm
    | false => exact edit_eq s here name (Binding.withValue v)
  | cons around outer ih =>
    rw [assignAlong, List.find?_cons]
    cases (s.localValue? name here).isSome with
    | true => exact (orUnchanged_define s here name v).symm
    | false =>
      rw [List.getLast?_cons, Option.getD_some]
      exact ih around

/-- Done in place, an operation does what it is to do, and one that fails leaves the
store as it was. -/
theorem perform_eq (s : Store) (op : Operation) : op.perform s = s.orUnchanged (op.outcome s) := by
  cases op with
  | child scope => rfl
  | define scope name v => exact edit_eq s scope name _
  | defineFunction scope name f => exact edit_eq s scope name _
  | defineConstant scope name v => exact edit_eq s scope name _
  | assign scope name v => exact assignAlong_eq s name v scope (s.outer scope)
  | assignFunction scope name f => exact edit_eq s (s.rootOf scope) name _

end InPlace

/-- Whether nothing is read-only in a store that has no value. -/
def ConstantsHaveValues (s : Store) : Prop :=
  ∀ id name b, s.local? id name = some b → b.readOnly = true → b.value?.isSome = true

/-- A change that makes nothing read-only without giving it a value. -/
def KeepsValue (f : Binding → Binding) : Prop :=
  ∀ b, (b.readOnly = true → b.value?.isSome = true) →
    (f b).readOnly = true → (f b).value?.isSome = true

/-- The changes of a binding that can be asked for. -/
inductive Filling : (Binding → Binding) → Prop where
  | value (v : Expr) : Filling (Binding.withValue v)
  | function (f : Expr) : Filling (Binding.withFunction f)
  | constant (v : Expr) : Filling (Binding.withConstant v)

theorem Filling.keepsValue {f : Binding → Binding} (filling : Filling f) : KeepsValue f := by
  cases filling with
  | value v => exact fun _ _ _ => rfl
  | function f => exact fun _ held locked => held locked
  | constant v => exact fun _ _ _ => rfl

/-- A change that is not refused is one of a binding that is not read-only. -/
theorem update_eq_ok {f : Binding → Binding} (ok : s.update id name f = .ok s') :
    s.isLocked id name = false ∧ s' = s.change id name f := by
  unfold update at ok
  split at ok
  · cases ok
  · rename_i free
    cases ok
    exact ⟨Bool.eq_false_iff.mpr free, rfl⟩

/-- An operation makes a scope, or asks for the change of a binding. -/
theorem Operation.outcome_cases (s : Store) (op : Operation) :
    (∃ parent, op = .child parent) ∨
      ∃ id name f, Filling f ∧ op.outcome s = s.update id name f := by
  cases op with
  | child parent => exact .inl ⟨parent, rfl⟩
  | define scope name v => exact .inr ⟨_, _, _, .value v, rfl⟩
  | defineFunction scope name f => exact .inr ⟨_, _, _, .function f, rfl⟩
  | defineConstant scope name v => exact .inr ⟨_, _, _, .constant v, rfl⟩
  | assign scope name v => exact .inr ⟨_, _, _, .value v, rfl⟩
  | assignFunction scope name f => exact .inr ⟨_, _, _, .function f, rfl⟩

theorem after_of_ok {op : Operation} (ok : op.outcome s = .ok s') : s.after op = s' := by
  rw [after, perform_eq, ok]
  rfl

theorem after_of_error {op : Operation} {e : Error} (failed : op.outcome s = .error e) :
    s.after op = s := by
  rw [after, perform_eq, failed]
  rfl

/-- An operation leaves a store with one more scope, or with the binding of a name
changed that is not read-only, or the store that it was asked of. -/
theorem after_cases (s : Store) (op : Operation) :
    (∃ parent, op = .child parent ∧ s.after op = (s.child parent).2) ∨
      (∃ id name f, s.isLocked id name = false ∧ Filling f ∧
        s.after op = s.change id name f) ∨ s.after op = s := by
  rcases Operation.outcome_cases s op with ⟨parent, rfl⟩ | ⟨id, name, f, filling, asked⟩
  · exact .inl ⟨parent, rfl, after_of_ok rfl⟩
  · cases updated : s.update id name f with
    | ok s' =>
      obtain ⟨free, rfl⟩ := update_eq_ok updated
      exact .inr (.inl ⟨id, name, f, free, filling, after_of_ok (asked.trans updated)⟩)
    | error e => exact .inr (.inr (after_of_error (asked.trans updated)))

theorem has_of_local? {b : Binding} (found : s.local? id name = some b) : s.Has id := by
  by_cases has : s.Has id
  · exact has
  · rw [local?_eq_none has] at found
    cases found

/-- No operation touches a binding that is read-only. -/
theorem local?_after {b : Binding} (found : s.local? id name = some b)
    (locked : b.readOnly = true) (op : Operation) : (s.after op).local? id name = some b := by
  rcases s.after_cases op with ⟨parent, _, made⟩ | ⟨target, n, f, free, _, made⟩ | same
  · rw [made, child, local?_enter s parent [] (has_of_local? found), found]
  · have elsewhere : ¬ (id = target ∧ name = n) := by
      rintro ⟨rfl, rfl⟩
      rw [isLocked, found] at free
      exact absurd (locked.symm.trans free) (by decide)
    rw [made, local?_change_elsewhere elsewhere, found]
  · rw [same, found]

theorem local?_afterAll {b : Binding} (found : s.local? id name = some b)
    (locked : b.readOnly = true) (ops : List Operation) :
    (s.afterAll ops).local? id name = some b := by
  induction ops generalizing s with
  | nil => exact found
  | cons op ops ih => exact ih (local?_after found locked op)

/-- The stores that operations lead to, failed ones included, from an empty root or from
the builtin library. -/
inductive Built : Store → Prop where
  | empty : Built Store.empty
  | library : Built withBuiltins
  | after {s : Store} (before : Built s) (op : Operation) : Built (s.after op)

theorem Built.afterAll (built : s.Built) (ops : List Operation) : (s.afterAll ops).Built := by
  induction ops generalizing s with
  | nil => exact built
  | cons op ops ih => exact ih (built.after op)

/-- Whether something holds of every binding. -/
def Everywhere (holds : Binding → Prop) (s : Store) : Prop :=
  ∀ id name b, s.local? id name = some b → holds b

theorem everywhere_empty (holds : Binding → Prop) : empty.Everywhere holds := by
  intro id n b found
  obtain ⟨i⟩ := id
  cases i <;> simp [empty, local?] at found

section Everywhere

variable {holds : Binding → Prop}

theorem Everywhere.change (h : s.Everywhere holds) {f : Binding → Binding}
    (fills : ∀ b, b = {} ∨ holds b → holds (f b)) : (s.change id name f).Everywhere holds := by
  intro other n b found
  rcases local?_change_cases found with ⟨rfl, rfl, _, rfl⟩ | before
  · refine fills _ ?_
    cases there : s.local? other n with
    | none => exact .inl rfl
    | some old => exact .inr (h other n old there)
  · exact h other n b before

theorem Everywhere.enter (h : s.Everywhere holds)
    (fresh : ∀ v, holds { value? := some v }) (parent : ScopeId) (values : List (String × Expr)) :
    (s.enter parent values).2.Everywhere holds := by
  intro id n b found
  rcases local?_enter_cases found with ⟨_, v, _, rfl⟩ | ⟨_, before⟩
  · exact fresh v
  · exact h id n b before

/-- What holds of each binding that was changed, if it held of it before, holds of all. -/
theorem Built.everywhere (built : s.Built) (fresh : ∀ v, holds { value? := some v })
    (fills : ∀ f, Filling f → ∀ b, b = {} ∨ holds b → holds (f b)) : s.Everywhere holds := by
  induction built with
  | empty => exact everywhere_empty holds
  | library =>
    refine List.foldlRecOn _ _ (everywhere_empty holds) fun s h op _ => ?_
    exact List.foldlRecOn _ _ h fun s h name _ => h.change (fills _ (.function _))
  | @after s _ op ih =>
    rcases s.after_cases op with ⟨parent, _, made⟩ | ⟨id, name, f, _, filling, made⟩ | same
    · exact made ▸ ih.enter fresh parent []
    · exact made ▸ ih.change (fills f filling)
    · exact same.symm ▸ ih

end Everywhere

theorem Built.constantsHaveValues (built : s.Built) : s.ConstantsHaveValues := by
  refine built.everywhere (fun _ _ => rfl) fun f filling b before => filling.keepsValue b ?_
  rcases before with rfl | held
  · exact nofun
  · exact held

end Store

theorem store_after {α : Type} (ps : List Pending) (r : EStateM.Result Error Machine α)
    (task : α → Task) : (Config.after ps r task).machine.store = (finalMachine r).store := by
  cases r <;> rfl

theorem store_functionOfValue (v : Expr) (m : Machine) :
    (finalMachine (functionOfValue v m)).store = m.store := by
  rw [functionOfValue_eq]
  split <;> rfl

theorem store_stepEval (scope : ScopeId) (e : Expr) (ps : List Pending) (m : Machine) :
    (stepEval scope e ps m).machine.store = m.store := by
  cases e with
  | symbol name =>
    unfold stepEval
    dsimp only
    split <;> rfl
  | pair id mark head args =>
    cases atom : head.isPair with
    | true =>
      cases head with
      | pair id' mark' car cdr => rfl
      | _ => cases atom
    | false =>
      rw [stepEval_of_isAtom atom, store_after]
      exact (headFunction_cases scope head m.countEvaluation).1
  | _ => rfl

/-- A step leaves the store alone, unless it answers a request of a program. -/
theorem Config.revised_step {w : World} {c d : Config} (next : c.step w = some d) :
    ∃ x, c.machine.store.Revised x d.machine.store := by
  have unchanged : d.machine.store = c.machine.store →
      ∃ x, c.machine.store.Revised x d.machine.store := fun same => ⟨.counters, same ▸ .same _⟩
  obtain ⟨task, ps, m⟩ := c
  cases task with
  | eval scope e =>
    cases next
    exact unchanged (store_stepEval scope e ps m)
  | arguments f scope values rest =>
    cases rest <;> cases next <;> exact unchanged rfl
  | apply f args scope =>
    simp only [Config.step, Option.some.injEq] at next
    subst next
    refine unchanged ?_
    split
    · rfl
    · exact store_enterCall m f.name args
  | run p =>
    cases next
    cases p with
    | perform x rest =>
      refine ⟨x, ?_⟩
      rw [stepRun, store_after]
      exact revised_perform w x m
    | _ => exact unchanged rfl
  | value v =>
    cases ps with
    | nil => cases next
    | cons p ps =>
      cases next
      cases p with
      | head scope call args =>
        exact unchanged ((store_after _ _ _).trans (store_functionOfValue v m))
      | leave tracing depth => exact unchanged (store_leaveCall m tracing depth (.ok v))
      | _ => exact unchanged rfl
  | error e =>
    cases ps with
    | nil => cases next
    | cons p ps =>
      cases next
      cases p with
      | leave tracing depth => exact unchanged (store_leaveCall m tracing depth (.error e))
      | _ => exact unchanged rfl

namespace Store

variable {s s' : Store}

theorem afterAll_of_defineAll {id : ScopeId} {values : List (String × Expr)}
    (ok : s.defineAll id values = .ok s') :
    s.afterAll (values.map fun b => .define id b.1 b.2) = s' := by
  induction values generalizing s with
  | nil => exact Except.ok.inj ok
  | cons first values ih =>
    obtain ⟨name, v⟩ := first
    cases defined : s.define id name v with
    | error e =>
      rw [defineAll, defined] at ok
      cases ok
    | ok next =>
      rw [defineAll, defined] at ok
      have made : (Operation.define id name v).outcome s = .ok next := defined
      rw [List.map_cons, afterAll, List.foldl_cons, after_of_ok made]
      exact ih ok

/-- A change that is not refused is made by the operation that asks for it. -/
theorem change_eq_afterAll {id : ScopeId} {name : String} {f : Binding → Binding}
    (free : s.isLocked id name = false) {op : Operation}
    (asks : op.outcome s = s.update id name f) : s.change id name f = s.afterAll [op] := by
  have granted : s.update id name f = .ok (s.change id name f) := by
    rw [update, free]
    rfl
  exact (after_of_ok (asks.trans granted)).symm

/-- What a request makes of a store, operations make of it. -/
theorem Revised.exists_operations {x : Effect} (h : s.Revised x s') :
    ∃ ops, s' = s.afterAll ops := by
  cases h with
  | same => exact ⟨[], rfl⟩
  | assigned scope name v free => exact ⟨[.assign scope name v], change_eq_afterAll free rfl⟩
  | @defined x name f definition free =>
    cases x with
    | defineGlobal n v =>
      cases definition
      exact ⟨[.define root name v], change_eq_afterAll free rfl⟩
    | defineConstant n v =>
      cases definition
      exact ⟨[.defineConstant root name v], change_eq_afterAll free rfl⟩
    | defineFunction n f =>
      cases definition
      exact ⟨[.defineFunction root name f], change_eq_afterAll free rfl⟩
    | _ => cases definition
  | entered parent bindings =>
    refine ⟨.child parent :: bindings.map fun b => .define (s.child parent).1 b.1 b.2, ?_⟩
    exact (afterAll_of_defineAll (s.defineAll_child parent bindings)).symm

end Store

/-- What a run makes of a store, operations make of it. -/
theorem Config.Reaches.exists_operations {w : World} {c d : Config} (steps : Reaches w c d) :
    ∃ ops, d.machine.store = c.machine.store.afterAll ops := by
  induction steps with
  | refl => exact ⟨[], rfl⟩
  | tail _ next ih =>
    obtain ⟨ops, before⟩ := ih
    obtain ⟨x, revised⟩ := revised_step next
    obtain ⟨more, made⟩ := revised.exists_operations
    exact ⟨ops ++ more, by rw [made, before, Store.afterAll, Store.afterAll, Store.afterAll,
      List.foldl_append]⟩

namespace Store

variable {s : Store}

/-- What is read-only has a value, and its binding stays as it is under all later
operations. An operation that fails leaves the whole store as it was, and one that does
not makes of it what it is to make. Evaluating an expression comes to a sequence of
operations. -/
theorem Built.constants_stay (built : s.Built) :
    (∀ id name b, s.local? id name = some b → b.readOnly = true →
      b.value?.isSome = true ∧ ∀ later, (s.afterAll later).local? id name = some b) ∧
    (∀ op : Operation, (∀ s', op.outcome s = .ok s' → op.perform s = .ok () s') ∧
      ∀ e, op.outcome s = .error e → op.perform s = .error e s) ∧
    ∀ (w : World) (scope : ScopeId) (e : Expr) (m : Machine), m.store = s →
      ∃ ops, (finalMachine (w.eval scope e m)).store = s.afterAll ops := by
  refine ⟨fun id name b found locked => ?_, fun op => ⟨fun s' ok => ?_, fun e failed => ?_⟩, ?_⟩
  · exact ⟨built.constantsHaveValues id name b found locked, local?_afterAll found locked⟩
  · rw [perform_eq, ok]
    rfl
  · rw [perform_eq, failed]
    rfl
  · rintro w scope e m rfl
    rw [← machine_after]
    exact (w.reaches_eval scope e m).exists_operations

/-- A constant of the root, and a scope below it through which it is assigned to. -/
theorem constants_stay_below :
    let s := Store.empty.afterAll [.defineConstant root "pi" (.integer 3), .child root]
    let b : Binding := { value? := some (.integer 3), readOnly := true }
    s.local? root "pi" = some b ∧ (∀ later, (s.afterAll later).local? root "pi" = some b) ∧
      Operation.perform (.assign ⟨1⟩ "pi" .nil) s =
        .error (.runtime (.constantModified "pi")) s := by
  intro s b
  have built : s.Built := Built.empty.afterAll _
  have found : s.local? root "pi" = some b := by rfl
  have refused : Operation.outcome s (.assign ⟨1⟩ "pi" .nil) =
      .error (.runtime (.constantModified "pi")) := by rfl
  obtain ⟨stays, fails, _⟩ := built.constants_stay
  exact ⟨found, (stays root "pi" b found rfl).2, (fails _).2 _ refused⟩

end Store

end Lisp
