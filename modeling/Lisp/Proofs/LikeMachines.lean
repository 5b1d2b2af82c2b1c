import Lisp.Proofs.ArgumentCounts
import Lisp.Proofs.CallLimit
import Lisp.Proofs.LikePrograms
import Lisp.Proofs.Scopes

/-!
# Machines that hold alike values

Two machines are alike if they have the same scopes around each other, with alike values in
the same slots, have made the objects that the likeness speaks of, and have printed the same
lines and asked for the same files. How deeply their calls are nested, what they counted and
what they traced is left open. Counters are compared where it is said from when on.

A request that is answered on two such machines is answered alike, fails with the same
error, and leaves machines that are alike again.
-/

namespace Lisp

namespace Likeness

/-- Bindings that hold alike values in their slots. -/
structure LikeSlots (ρ : Likeness) (b b' : Binding) : Prop where
  value : Option.Rel ρ.Like b.value? b'.value?
  function : Option.Rel ρ.Like b.function? b'.function?
  readOnly : b.readOnly = b'.readOnly

/-- Stores with the same scopes, whose slots hold alike values. -/
structure LikeStore (ρ : Likeness) (s s' : Store) : Prop where
  size : s.scopes.size = s'.scopes.size
  outer : ∀ id, s.outer id = s'.outer id
  slots : ∀ id name, Option.Rel ρ.LikeSlots (s.local? id name) (s'.local? id name)

variable {ρ σ : Likeness} {s s' : Store} {o : Outset}

theorem rel_mono {α β : Type} {r r' : α → β → Prop} {a? : Option α} {b? : Option β}
    (h : Option.Rel r a? b?) (le : ∀ a b, r a b → r' a b) : Option.Rel r' a? b? := by
  cases h with
  | none => exact .none
  | some same => exact .some (le _ _ same)

theorem rel_bind {α β α' β' : Type} {r : α → β → Prop} {r' : α' → β' → Prop}
    {f : α → Option α'} {g : β → Option β'} {a? : Option α} {b? : Option β}
    (h : Option.Rel r a? b?) (le : ∀ a b, r a b → Option.Rel r' (f a) (g b)) :
    Option.Rel r' (a?.bind f) (b?.bind g) := by
  cases h with
  | none => exact .none
  | some same => exact le _ _ same

theorem isSome_eq {α β : Type} {r : α → β → Prop} {a? : Option α} {b? : Option β}
    (h : Option.Rel r a? b?) : a?.isSome = b?.isSome := by
  cases h <;> rfl

theorem rel_findSome? {ι α β : Type} {r : α → β → Prop} {f : ι → Option α} {g : ι → Option β}
    (h : ∀ i, Option.Rel r (f i) (g i)) (l : List ι) :
    Option.Rel r (l.findSome? f) (l.findSome? g) := by
  induction l with
  | nil => exact .none
  | cons i l ih =>
    have here := h i
    rw [List.findSome?_cons, List.findSome?_cons]
    generalize f i = a?, g i = b? at here
    cases here with
    | none => exact ih
    | some same => exact .some same

theorem LikeSlots.mono {b b' : Binding} (h : ρ.LikeSlots b b') (le : ρ ≤ σ) : σ.LikeSlots b b' where
  value := rel_mono h.value fun _ _ => Like.mono le
  function := rel_mono h.function fun _ _ => Like.mono le
  readOnly := h.readOnly

namespace LikeStore

theorem mono (h : ρ.LikeStore s s') (le : ρ ≤ σ) : σ.LikeStore s s' where
  size := h.size
  outer := h.outer
  slots id name := rel_mono (h.slots id name) fun _ _ slots => slots.mono le

theorem chain_eq (h : ρ.LikeStore s s') (id : ScopeId) : s.chain id = s'.chain id := by
  rw [Store.chain, Store.chain, h.outer]

theorem localValue? (h : ρ.LikeStore s s') (name : String) (id : ScopeId) :
    Option.Rel ρ.Like (s.localValue? name id) (s'.localValue? name id) :=
  rel_bind (h.slots id name) fun _ _ slots => slots.value

theorem value? (h : ρ.LikeStore s s') (id : ScopeId) (name : String) :
    Option.Rel ρ.Like (s.value? id name) (s'.value? id name) := by
  rw [Store.value?, Store.value?, h.chain_eq]
  exact rel_findSome? (h.localValue? name) _

theorem function? (h : ρ.LikeStore s s') (id : ScopeId) (name : String) :
    Option.Rel ρ.Like (s.function? id name) (s'.function? id name) := by
  rw [Store.function?, Store.function?, h.chain_eq]
  exact rel_findSome? (fun id => rel_bind (h.slots id name) fun _ _ slots => slots.function) _

theorem isConstant_eq (h : ρ.LikeStore s s') (id : ScopeId) (name : String) :
    s.isConstant id name = s'.isConstant id name := by
  have nearest : Option.Rel ρ.LikeSlots (s.binding? id name) (s'.binding? id name) := by
    rw [Store.binding?, Store.binding?, h.chain_eq]
    exact rel_findSome? (fun id => h.slots id name) _
  rw [Store.isConstant, Store.isConstant]
  generalize s.binding? id name = b?, s'.binding? id name = b?' at nearest
  cases nearest with
  | none => rfl
  | some slots => exact slots.readOnly

theorem isLocked_eq (h : ρ.LikeStore s s') (id : ScopeId) (name : String) :
    s.isLocked id name = s'.isLocked id name := by
  have slots := h.slots id name
  rw [Store.isLocked, Store.isLocked]
  generalize s.local? id name = b?, s'.local? id name = b?' at slots
  cases slots with
  | none => rfl
  | some slots => exact slots.readOnly

theorem assignee_eq (h : ρ.LikeStore s s') (id : ScopeId) (name : String) :
    s.assignee id name = s'.assignee id name := by
  have held : (fun i => (s.localValue? name i).isSome) = fun i => (s'.localValue? name i).isSome :=
    funext fun i => isSome_eq (h.localValue? name i)
  rw [Store.assignee, Store.assignee, Store.rootOf, Store.rootOf, h.chain_eq, h.outer, held]

theorem has_iff (h : ρ.LikeStore s s') (id : ScopeId) : s.Has id ↔ s'.Has id := by
  rw [Store.Has, Store.Has, h.size]

/-- Stores stay alike if a binding is changed alike in both. -/
theorem change (h : ρ.LikeStore s s') (id : ScopeId) (name : String) {f f' : Binding → Binding}
    (changed : ∀ b b', ρ.LikeSlots b b' → ρ.LikeSlots (f b) (f' b')) :
    ρ.LikeStore (s.change id name f) (s'.change id name f') where
  size := by simpa [Store.change] using h.size
  outer other := by rw [Store.outer_change, Store.outer_change, h.outer]
  slots other name' := by
    by_cases here : other = id ∧ name' = name
    · obtain ⟨rfl, rfl⟩ := here
      by_cases has : s.Has other
      · rw [Store.local?_change_self has, Store.local?_change_self ((h.has_iff other).mp has)]
        refine .some (changed _ _ ?_)
        have slots := h.slots other name'
        generalize s.local? other name' = b?, s'.local? other name' = b?' at slots
        cases slots with
        | none => exact ⟨.none, .none, rfl⟩
        | some slots => exact slots
      · have gone : ¬ s'.Has other := fun there => has ((h.has_iff other).mpr there)
        rw [Store.local?_eq_none (by rwa [Store.has_change]),
          Store.local?_eq_none (by rwa [Store.has_change])]
        exact .none
    · rw [Store.local?_change_elsewhere here, Store.local?_change_elsewhere here]
      exact h.slots other name'

theorem fresh_eq (h : ρ.LikeStore s s') : s.fresh = s'.fresh := by
  rw [Store.fresh, Store.fresh, h.size]

theorem given {values values' : List (String × Expr)}
    (known : List.Forall₂ ρ.LikeBinding values values') (name : String) :
    Option.Rel ρ.Like (Store.given values name) (Store.given values' name) := by
  have latest := List.forall₂_reverse_iff.mpr known
  rw [Store.given, Store.given]
  refine rel_map (r := ρ.LikeBinding) ?_ fun _ _ same => same.2
  generalize values.reverse = items, values'.reverse = items' at latest
  induction latest with
  | nil => exact .none
  | @cons b b' _ _ same _ ih =>
    rw [List.find?_cons, List.find?_cons, same.1]
    split
    · exact .some same
    · exact ih

/-- Stores stay alike if a scope with alike values is opened in both. -/
theorem enter (h : ρ.LikeStore s s') (parent : ScopeId) {values values' : List (String × Expr)}
    (known : List.Forall₂ ρ.LikeBinding values values') :
    ρ.LikeStore (s.enter parent values).2 (s'.enter parent values').2 where
  size := by simpa [Store.enter] using h.size
  outer id := by
    by_cases has : s.Has id
    · rw [Store.outer_enter s parent values has,
        Store.outer_enter s' parent values' ((h.has_iff id).mp has), h.outer]
    · by_cases new : id = s.fresh
      · subst new
        rw [Store.outer_enter_fresh, h.fresh_eq, Store.outer_enter_fresh, h.chain_eq]
      · rw [Store.outer_eq_nil (by simp [Store.has_enter, has, new]),
          Store.outer_eq_nil (by simp [Store.has_enter, ← h.has_iff, ← h.fresh_eq, has, new])]
  slots id name := by
    by_cases has : s.Has id
    · rw [Store.local?_enter s parent values has,
        Store.local?_enter s' parent values' ((h.has_iff id).mp has)]
      exact h.slots id name
    · by_cases new : id = s.fresh
      · subst new
        rw [Store.local?_enter_fresh, h.fresh_eq, Store.local?_enter_fresh]
        exact rel_map (given known name) fun _ _ value => ⟨.some value, .none, rfl⟩
      · rw [Store.local?_eq_none (by simp [Store.has_enter, has, new]),
          Store.local?_eq_none (by simp [Store.has_enter, ← h.has_iff, ← h.fresh_eq, has, new])]
        exact .none

end LikeStore

/-- Machines with alike stores that have made the objects of a likeness, printed the same
and asked for the same files. -/
structure LikeMachine (ρ : Likeness) (m m' : Machine) : Prop where
  store : ρ.LikeStore m.store m'.store
  left : m.objects = ρ.left
  right : m'.objects = ρ.right
  printed : m.printed = m'.printed
  requested : m.requested = m'.requested

/-- Machines that are alike and have counted the same since the comparison began. -/
structure LikeCounting (o : Outset) (ρ : Likeness) (m m' : Machine) : Prop extends
    ρ.LikeMachine m m' where
  abreast : o.Abreast m.counters m'.counters

namespace LikeCounting

variable {m m' : Machine}

theorem countEvaluation (h : ρ.LikeCounting o m m') :
    ρ.LikeCounting o m.countEvaluation m'.countEvaluation :=
  { h with abreast := h.abreast.ahead 1 0 0 0 }

theorem countLookup (h : ρ.LikeCounting o m m') :
    ρ.LikeCounting o m.countLookup m'.countLookup :=
  { h with abreast := h.abreast.ahead 0 1 0 0 }

theorem countLiteral (h : ρ.LikeCounting o m m') :
    ρ.LikeCounting o m.countLiteral m'.countLiteral :=
  { h with abreast := h.abreast.ahead 0 0 0 1 }

theorem countCall (h : ρ.LikeCounting o m m') : ρ.LikeCounting o m.countCall m'.countCall :=
  { h with abreast := h.abreast.ahead 0 0 1 0 }

theorem enterCall (h : ρ.LikeCounting o m m') (name name' : String) (args args' : List Expr) :
    ρ.LikeCounting o (m.enterCall name args) (m'.enterCall name' args') := by
  obtain ⟨trace, entered⟩ := m.exists_enterCall_eq name args
  obtain ⟨trace', entered'⟩ := m'.exists_enterCall_eq name' args'
  rw [entered, entered']
  exact { h.countCall with }

theorem leaveCall (h : ρ.LikeCounting o m m') (traced traced' : Bool) (depth depth' : Nat)
    (r r' : Except Error Expr) :
    ρ.LikeCounting o (m.leaveCall traced depth r) (m'.leaveCall traced' depth' r') := by
  obtain ⟨trace, left⟩ := m.exists_leaveCall_eq traced depth r
  obtain ⟨trace', left'⟩ := m'.exists_leaveCall_eq traced' depth' r'
  rw [left, left']
  exact { h with }

end LikeCounting

end Likeness

section Runs

variable {α β γ δ : Type}

/-- How two runs end that start on alike machines: one of them because calls were nested
too deeply, or both with the same error or with results in a relation, on machines that
are alike under a likeness grown by then. -/
inductive LikeEnd (holds : Likeness → Machine → Machine → Prop) (post : Likeness → α → β → Prop)
    (ρ : Likeness) : EStateM.Result Error Machine α → EStateM.Result Error Machine β → Prop where
  | refused {r r'} : Overflowed r ∨ Overflowed r' → LikeEnd holds post ρ r r'
  | ok {σ a b m m'} : ρ ≤ σ → post σ a b → holds σ m m' → LikeEnd holds post ρ (.ok a m) (.ok b m')
  | error {σ m m'} (e : Error) : ρ ≤ σ → holds σ m m' →
      LikeEnd holds post ρ (.error e m) (.error e m')

/-- Computations that end alike on all machines that are alike. -/
def LikeRun (holds : Likeness → Machine → Machine → Prop) (post : Likeness → α → β → Prop)
    (ρ : Likeness) (run : Run α) (run' : Run β) : Prop :=
  ∀ m m', holds ρ m m' → LikeEnd holds post ρ (run m) (run' m')

variable {holds : Likeness → Machine → Machine → Prop} {ρ σ : Likeness}
  {post : Likeness → α → β → Prop} {post' : Likeness → γ → δ → Prop}

theorem LikeEnd.mono {r : EStateM.Result Error Machine α} {r' : EStateM.Result Error Machine β}
    (h : LikeEnd holds post σ r r') (le : ρ ≤ σ) : LikeEnd holds post ρ r r' := by
  cases h with
  | refused refused => exact .refused refused
  | ok le' value state => exact .ok (le.trans le') value state
  | error e le' state => exact .error e (le.trans le') state

theorem LikeEnd.imp {holds' : Likeness → Machine → Machine → Prop}
    {r : EStateM.Result Error Machine α} {r' : EStateM.Result Error Machine β}
    (h : LikeEnd holds post ρ r r') (weaker : ∀ σ m m', holds σ m m' → holds' σ m m') :
    LikeEnd holds' post ρ r r' := by
  cases h with
  | refused refused => exact .refused refused
  | ok le value state => exact .ok le value (weaker _ _ _ state)
  | error e le state => exact .error e le (weaker _ _ _ state)

namespace LikeRun

variable {run : Run α} {run' : Run β}

theorem pure {a : α} {b : β} (value : post ρ a b) :
    LikeRun holds post ρ (Pure.pure a) (Pure.pure b) :=
  fun _ _ state => .ok le_rfl value state

theorem throw (e : Error) :
    LikeRun holds post ρ (MonadExcept.throw e : Run α) (MonadExcept.throw e : Run β) :=
  fun _ _ state => .error e le_rfl state

/-- An overflow of the first part is one of the whole. -/
theorem overflowed_bind {next : α → Run γ} {m : Machine} (h : Overflowed (run m)) :
    Overflowed ((run >>= next) m) := by
  obtain ⟨depth, m', result⟩ := h.exists_error
  rw [bind_of_error result]
  trivial

/-- Computations in two parts, the second under the likeness that the first leads to. -/
theorem bind {next : α → Run γ} {next' : β → Run δ} (first : LikeRun holds post ρ run run')
    (later : ∀ σ, ρ ≤ σ → ∀ a b, post σ a b → LikeRun holds post' σ (next a) (next' b)) :
    LikeRun holds post' ρ (run >>= next) (run' >>= next') := by
  intro m m' state
  have ends := first m m' state
  generalize result : run m = r, result' : run' m' = r' at ends
  cases ends with
  | refused refused =>
    rcases refused with left | right
    · exact .refused (.inl (overflowed_bind (result ▸ left)))
    · exact .refused (.inr (overflowed_bind (result' ▸ right)))
  | ok le value state =>
    rw [bind_of_ok result, bind_of_ok result']
    exact (later _ le _ _ value _ _ state).mono le
  | error e le state =>
    rw [bind_of_error result, bind_of_error result']
    exact .error e le state

/-- A run that takes a step first that keeps machines alike. -/
theorem modify_bind {f f' : Machine → Machine} {run : Run α} {run' : Run β}
    (keeps : ∀ m m', holds ρ m m' → holds ρ (f m) (f' m')) (later : LikeRun holds post ρ run run') :
    LikeRun holds post ρ (do modify f; run) (do modify f'; run') :=
  fun m m' state => later (f m) (f' m') (keeps m m' state)

end LikeRun

end Runs

namespace Likeness

section Requests

variable {ρ : Likeness} {o : Outset}

/-- A datum takes as many new objects wherever it is placed, and those that are made at the
same time stand at the same places. -/
theorem exists_place (d : Datum) : ∃ count, ∀ n, (d.place n).2 = n + count ∧
    ∀ (ρ : Likeness) n', (∀ i < count, ρ.object ⟨n + i⟩ ⟨n' + i⟩) →
      ρ.Like (d.place n).1 (d.place n').1 := by
  induction d with
  | pair id mark car cdr ihCar ihCdr =>
    obtain ⟨k, ihCar⟩ := ihCar
    obtain ⟨l, ihCdr⟩ := ihCdr
    refine ⟨1 + k + l, fun n => ⟨?_, fun ρ n' same => ?_⟩⟩
    · simp only [Datum.place, (ihCar _).1, (ihCdr _).1]
      omega
    · simp only [Datum.place, (ihCar _).1]
      refine .pair mark (same 0 (by omega)) ((ihCar _).2 ρ _ ?_) ((ihCdr _).2 ρ _ ?_)
      · intro i small
        simpa only [Nat.add_assoc] using same (1 + i) (by omega)
      · intro i small
        simpa only [Nat.add_assoc] using same (1 + k + i) (by omega)
  | function f => exact f.elim
  | _ => exact ⟨0, fun _ => ⟨rfl, fun _ _ _ => by constructor⟩⟩

/-- Computations that end alike and count the same. -/
abbrev InStep {α β : Type} (o : Outset) (post : Likeness → α → β → Prop) (ρ : Likeness)
    (run : Run α) (run' : Run β) : Prop := LikeRun (LikeCounting o) post ρ run run'

/-- Objects made at the same time stand for each other. -/
theorem inStep_newObject :
    ρ.InStep o (fun σ => σ.object) Machine.newObject Machine.newObject := by
  intro m m' state
  have made := ρ.grow_object Nat.zero_lt_one
  rw [Nat.add_zero, Nat.add_zero, ← state.left, ← state.right] at made
  exact .ok (ρ.le_grow 1) made
    { store := state.store.mono (ρ.le_grow 1)
      left := congrArg (· + 1) state.left
      right := congrArg (· + 1) state.right
      printed := state.printed
      requested := state.requested
      abreast := state.abreast }

theorem inStep_update (id : ScopeId) (name : String) {f f' : Binding → Binding}
    (changed : ∀ b b', ρ.LikeSlots b b' → ρ.LikeSlots (f b) (f' b')) :
    ρ.InStep o (fun _ _ _ => True) (Machine.update id name f) (Machine.update id name f') := by
  intro m m' state
  rw [Machine.update, Machine.update, state.store.isLocked_eq]
  split
  · exact .error _ le_rfl state
  · exact .ok le_rfl trivial { state with store := state.store.change id name changed }

/-- Alike requests are answered alike. -/
theorem inStep_perform (w : World) {x x' : Effect}
    {answers : Likeness → x.Answer → x'.Answer → Prop} (asked : ρ.LikeEffect o x x' answers) :
    ρ.InStep o answers (x.perform w) (x'.perform w) := by
  cases asked with
  | valueOf scope name => exact fun m m' state => .ok le_rfl (state.store.value? scope name) state
  | functionOf scope name =>
    exact fun m m' state => .ok le_rfl (state.store.function? scope name) state
  | isConstant scope name =>
    exact fun m m' state => .ok le_rfl (state.store.isConstant_eq scope name) state
  | assign scope name value =>
    intro m m' state
    simp only [Effect.perform, ← state.store.assignee_eq scope name]
    refine inStep_update _ name (fun b b' slots => ?_) m m' state
    exact ⟨.some value, slots.function, slots.readOnly⟩
  | defineGlobal name value =>
    exact inStep_update _ name fun b b' slots => ⟨.some value, slots.function, slots.readOnly⟩
  | defineConstant name value =>
    exact inStep_update _ name fun b b' slots => ⟨.some value, slots.function, rfl⟩
  | defineFunction name function =>
    exact inStep_update _ name fun b b' slots => ⟨slots.value, .some function, slots.readOnly⟩
  | enter parent values =>
    exact fun m m' state => .ok le_rfl state.store.fresh_eq
      { state with store := state.store.enter parent values }
  | cons car cdr =>
    exact inStep_newObject.bind fun σ le i j same =>
      .pure (.pair none same (car.mono le) (cdr.mono le))
  | newFunction code =>
    exact inStep_newObject.bind fun σ le i j same =>
      .pure (.function same (code.imp fun _ _ => Like.mono le))
  | place d =>
    intro m m' state
    obtain ⟨count, placed⟩ := exists_place d
    have made : ∀ i < count, (ρ.grow count).object ⟨m.objects + i⟩ ⟨m'.objects + i⟩ := by
      intro i small
      rw [state.left, state.right]
      exact ρ.grow_object small
    exact .ok (ρ.le_grow count) ((placed m.objects).2 _ _ made)
      { store := state.store.mono (ρ.le_grow count)
        left := (placed m.objects).1.trans (congrArg (· + count) state.left)
        right := (placed m'.objects).1.trans (congrArg (· + count) state.right)
        printed := state.printed
        requested := state.requested
        abreast := state.abreast }
  | print line =>
    exact fun m m' state => .ok le_rfl trivial
      { state with printed := congrArg (Array.push · line) state.printed }
  | counters => exact fun m m' state => .ok le_rfl state.abreast state
  | elapsed => exact fun m m' state => .ok le_rfl rfl state
  | file path =>
    intro m m' state
    have noted : ρ.LikeCounting o { m with requested := m.requested.push path }
        { m' with requested := m'.requested.push path } :=
      { state with requested := congrArg (Array.push · path) state.requested }
    simp only [Effect.perform]
    cases w.fileText path with
    | ok text => exact .ok le_rfl rfl noted
    | error fault => exact .error _ le_rfl noted

end Requests

end Likeness

end Lisp
