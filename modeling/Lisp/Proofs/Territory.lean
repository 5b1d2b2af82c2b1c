import Lisp.Proofs.LibraryConfinement
import Lisp.Proofs.Scopes
import Lisp.Proofs.Termination

/-!
# An evaluation stays in its territory

A region is a set of scopes, chosen once for a run, that contains every scope which
is not made yet. Its territory at a moment of the run consists of the scopes of the
region that there are. A store is closed in a territory if from the scopes of it,
through what lies around them and through the closures that they hold, only scopes
of it are found.

One step of an evaluation that speaks only of its territory, in a store closed in
it, leads to such a state again, and leaves every scope outside the region as it
was. The same follows for runs of any length.
-/

namespace Lisp

open Config

/-- Whether a change of bindings adds only values that speak of a territory. -/
def Binding.AddsWithin (territory : Set ScopeId) (f : Binding → Binding) : Prop :=
  ∀ b v, (f b).Holds v → v.captured ⊆ territory ∨ b.Holds v

theorem Effect.addsWithin {territory : Set ScopeId} {x : Effect} {name : String}
    {f : Binding → Binding} (definition : x.definition? = some (name, f))
    (within : x.Within territory) : Binding.AddsWithin territory f := by
  intro b v holds
  cases x <;> cases definition <;> rcases holds with value | function <;>
    simp_all [Binding.withValue, Binding.withConstant, Binding.withFunction, Binding.Holds,
      Effect.Within]

namespace Store

/-- Whether nothing outside a territory is found from the scopes of it. -/
structure Closed (s : Store) (territory : Set ScopeId) : Prop where
  root : root ∈ territory
  has : ∀ id ∈ territory, s.Has id
  outer : ∀ id ∈ territory, ∀ around ∈ s.outer id, around ∈ territory
  held : ∀ id ∈ territory, ∀ name v, s.Holds id name v → v.captured ⊆ territory

/-- The scopes of a region that there are. -/
def territory (s : Store) (region : Set ScopeId) : Set ScopeId := {id | id ∈ region ∧ s.Has id}

variable {s : Store} {region : Set ScopeId} {id : ScopeId} {name : String}

theorem territory_change (f : Binding → Binding) :
    (s.change id name f).territory region = s.territory region := by
  ext other
  simp [territory]

theorem territory_enter (parent : ScopeId) (values : List (String × Expr)) :
    s.territory region ⊆ (s.enter parent values).2.territory region :=
  fun _ here => ⟨here.1, (has_enter s parent values).mpr (.inl here.2)⟩

theorem Closed.chain {territory : Set ScopeId} (h : s.Closed territory) (there : id ∈ territory) :
    ∀ around ∈ s.chain id, around ∈ territory := by
  intro around mem
  rcases List.mem_cons.mp mem with rfl | outside
  · exact there
  · exact h.outer id there around outside

/-- A change that adds only known values to a binding keeps a store closed. -/
theorem Closed.change {territory : Set ScopeId} (h : s.Closed territory) {f : Binding → Binding}
    (adds : Binding.AddsWithin territory f) :
    (s.change id name f).Closed territory where
  root := h.root
  has other there := (has_change id name f).mpr (h.has other there)
  outer other there around mem := h.outer other there around (by simpa using mem)
  held other there name' v holds := by
    obtain ⟨b, found, slot⟩ := holds
    rcases local?_change_cases found with ⟨rfl, rfl, _, rfl⟩ | before
    · rcases adds _ v slot with inside | old
      · exact inside
      · cases binding : s.local? other name' with
        | none => simp [binding, Binding.Holds] at old
        | some b => exact h.held other there name' v ⟨b, binding, by simpa [binding] using old⟩
    · exact h.held other there name' v ⟨b, before, slot⟩

/-- A new scope below a known one, with known values, keeps a store closed. -/
theorem Closed.enter (h : s.Closed (s.territory region)) {parent : ScopeId}
    {values : List (String × Expr)} (there : parent ∈ s.territory region)
    (known : capturedAll (values.map Prod.snd) ⊆ s.territory region) :
    (s.enter parent values).2.Closed ((s.enter parent values).2.territory region) := by
  have grown : s.territory region ⊆ (s.enter parent values).2.territory region :=
    territory_enter parent values
  refine ⟨grown h.root, fun id there => there.2, ?_, ?_⟩
  · intro id here around mem
    rcases (has_enter s parent values).mp here.2 with old | rfl
    · rw [outer_enter s parent values old] at mem
      exact grown (h.outer id ⟨here.1, old⟩ around mem)
    · rw [outer_enter_fresh] at mem
      exact grown (h.chain there around mem)
  · intro id here name v holds
    obtain ⟨b, found, slot⟩ := holds
    rcases local?_enter_cases found with ⟨rfl, v', mem, rfl⟩ | ⟨old, before⟩
    · have same : v' = v := by simpa [Binding.Holds] using slot
      subst same
      have given := captured_subset_capturedAll (List.mem_map_of_mem (f := Prod.snd) mem)
      exact (given.trans known).trans grown
    · exact (h.held id ⟨here.1, old⟩ name v ⟨b, before, slot⟩).trans grown

/-- What a run in a region may make of a store: scopes are never lost, and those
outside the region stay as they are. -/
structure Extends (s s' : Store) (region : Set ScopeId) : Prop where
  has : ∀ id, s.Has id → s'.Has id
  outside : ∀ id ∉ region, s'.scopes[id.index]? = s.scopes[id.index]?

theorem Extends.refl (s : Store) (region : Set ScopeId) : s.Extends s region :=
  ⟨fun _ h => h, fun _ _ => rfl⟩

theorem Extends.trans {s s' s'' : Store} (first : s.Extends s' region)
    (second : s'.Extends s'' region) : s.Extends s'' region :=
  ⟨fun id h => second.has id (first.has id h),
    fun id out => (second.outside id out).trans (first.outside id out)⟩

theorem Extends.territory {s s' : Store} (h : s.Extends s' region) :
    s.territory region ⊆ s'.territory region := fun id here => ⟨here.1, h.has id here.2⟩

theorem extends_change (here : id ∈ region) (f : Binding → Binding) :
    s.Extends (s.change id name f) region :=
  ⟨fun other => (has_change id name f).mpr,
    fun other out => scopes_change (by rintro rfl; exact out here) name f⟩

end Store

variable {region : Set ScopeId}

/-- A store that a request made of another while it spoke of its territory. -/
def Store.Next (region : Set ScopeId) (s s' : Store) : Prop :=
  ∃ x : Effect, x.Within (s.territory region) ∧ s.Revised x s'

theorem Store.Next.refl (region : Set ScopeId) (s : Store) : s.Next region s :=
  ⟨.counters, trivial, .same _⟩

/-- What a request that speaks of the territory makes of a closed store. -/
theorem Store.Revised.closed {s s' : Store} {x : Effect} (h : s.Revised x s')
    (closed : s.Closed (s.territory region)) (unmade : ∀ id, ¬ s.Has id → id ∈ region)
    (within : x.Within (s.territory region)) :
    s'.Closed (s'.territory region) ∧ s.Extends s' region := by
  cases h with
  | same => exact ⟨closed, .refl s region⟩
  | assigned scope name v free =>
    have target := closed.chain within.1 _ (s.assignee_mem_chain scope name)
    refine ⟨?_, Store.extends_change target.1 _⟩
    rw [Store.territory_change]
    refine closed.change fun b v' holds => ?_
    rcases holds with value | function
    · exact .inl (Option.some.inj value ▸ within.2)
    · exact .inr (.inr function)
  | @defined x name f definition free =>
    refine ⟨?_, Store.extends_change closed.root.1 _⟩
    rw [Store.territory_change]
    exact closed.change (Effect.addsWithin definition within)
  | entered parent bindings =>
    refine ⟨closed.enter within.1 within.2, ⟨fun id has => ?_, fun id out => ?_⟩⟩
    · exact (Store.has_enter s parent bindings).mpr (.inl has)
    · exact Store.scopes_enter s parent bindings (by_contra fun no => out (unmade id no))

theorem store_enterCall (m : Machine) (name : String) (args : List Expr) :
    (m.enterCall name args).store = m.store := by
  unfold Machine.enterCall Machine.record
  dsimp only
  split <;> rfl

theorem store_leaveCall (m : Machine) (traced : Bool) (depth : Nat)
    (outcome : Except Error Expr) : (m.leaveCall traced depth outcome).store = m.store := by
  unfold Machine.leaveCall Machine.record
  dsimp only
  split <;> rfl

/-- A value that is found on a chain of known scopes speaks only of them. -/
theorem Store.Closed.value? {s : Store} {territory : Set ScopeId} (h : s.Closed territory)
    {scope : ScopeId} (there : scope ∈ territory) {name : String} {v : Expr}
    (found : s.value? scope name = some v) : v.captured ⊆ territory := by
  obtain ⟨id, mem, slot⟩ := List.exists_of_findSome?_eq_some found
  exact h.held id (h.chain there id mem) name v (holds_of_localValue? slot)

theorem Store.Closed.function? {s : Store} {territory : Set ScopeId} (h : s.Closed territory)
    {scope : ScopeId} (there : scope ∈ territory) {name : String} {f : Expr}
    (found : s.function? scope name = some f) : f.captured ⊆ territory := by
  obtain ⟨id, mem, slot⟩ := List.exists_of_findSome?_eq_some found
  exact h.held id (h.chain there id mem) name f (holds_of_localFunction? slot)

/-- The answer to a request that speaks of the territory speaks of what it has grown
to. -/
theorem answerWithin_perform {w : World} {x : Effect} {m m' : Machine} {a : x.Answer}
    (closed : m.store.Closed (m.store.territory region))
    (unmade : ∀ id, ¬ m.store.Has id → id ∈ region)
    (within : x.Within (m.store.territory region)) (ok : x.perform w m = .ok a m') :
    x.AnswerWithin (m'.store.territory region) a := by
  cases x with
  | valueOf scope name =>
    cases ok
    exact fun v found => closed.value? within found
  | functionOf scope name =>
    cases ok
    exact fun f found => closed.function? within found
  | enter parent bindings =>
    cases ok
    exact ⟨unmade _ m.store.not_has_fresh, (Store.has_enter m.store parent bindings).mpr (.inr rfl)⟩
  | cons car cdr =>
    cases ok
    exact (Sexp.captured_pair _ none car cdr).trans_subset (Set.union_subset within.1 within.2)
  | newFunction code =>
    cases ok
    exact within
  | place d =>
    cases ok
    exact (Datum.captured_place d m.objects).subset.trans (Set.empty_subset _)
  | _ => trivial

theorem functionOfValue_eq (v : Expr) (m : Machine) :
    functionOfValue v m = match v with
      | .function f => .ok f m
      | v => .error (.runtime (.notFunction v.text)) m := by
  cases v <;> rfl

theorem functionNamed_eq (scope : ScopeId) (name : String) (m : Machine) :
    functionNamed scope name m = match m.store.function? scope name with
      | some (.function f) => .ok f m.countLookup
      | some v => .error (.runtime (.boundToNonFunction name v.text)) m.countLookup
      | none => .error (.runtime (.undefinedFunction name)) m.countLookup := by
  rw [functionNamed, modify_bind, get_bind]
  have same : m.countLookup.store = m.store := rfl
  rw [same]
  cases m.store.function? scope name with
  | none => rfl
  | some v => cases v <;> rfl

/-- The function at the head of a call is found without a change of the store. It
stands there itself, or it is the function of the name that stands there. -/
theorem headFunction_cases (scope : ScopeId) (head : Expr) (m : Machine) :
    (finalMachine (headFunction scope head m)).store = m.store ∧
      ∀ f m', headFunction scope head m = .ok f m' →
        head = .function f ∨ ∃ name, m.store.function? scope name = some (.function f) := by
  have value : headFunction scope head m = functionOfValue head m ∨
      ∃ name, headFunction scope head m = functionNamed scope name m := by
    cases head with
    | symbol name => exact .inr ⟨name, rfl⟩
    | _ => exact .inl rfl
  rcases value with same | ⟨name, same⟩
  · rw [same, functionOfValue_eq]
    split
    · exact ⟨rfl, fun f m' ok => by cases ok; exact .inl rfl⟩
    · exact ⟨rfl, nofun⟩
  · rw [same, functionNamed_eq]
    split
    · rename_i f found
      exact ⟨rfl, fun f' m' ok => by cases ok; exact .inr ⟨name, found⟩⟩
    · exact ⟨rfl, nofun⟩
    · exact ⟨rfl, nofun⟩

/-- Whether what an evaluation does next speaks only of a territory. -/
def Task.Within (territory : Set ScopeId) : Task → Prop
  | eval scope e => scope ∈ territory ∧ e.captured ⊆ territory
  | arguments f scope values rest =>
    f.code.captured ⊆ territory ∧ scope ∈ territory ∧ capturedAll values ⊆ territory ∧
      rest.captured ⊆ territory
  | apply f args scope =>
    f.code.captured ⊆ territory ∧ scope ∈ territory ∧ capturedAll args ⊆ territory
  | run p => p.Confined territory Program.Value
  | value v => v.captured ⊆ territory
  | error _ => True

/-- Whether what waits for a result speaks only of a territory. -/
def Pending.Within (territory : Set ScopeId) : Pending → Prop
  | head scope _ args => scope ∈ territory ∧ args.captured ⊆ territory
  | argument f scope values rest =>
    f.code.captured ⊆ territory ∧ scope ∈ territory ∧ capturedAll values ⊆ territory ∧
      rest.captured ⊆ territory
  | .next rest => ∀ larger, territory ⊆ larger → ∀ v : Expr, v.captured ⊆ larger →
    (rest v).Confined larger Program.Value
  | tracing _ => True
  | leave _ _ => True

theorem Pending.Within.mono {territory larger : Set ScopeId} {p : Pending}
    (h : p.Within territory) (grown : territory ⊆ larger) : p.Within larger := by
  cases p with
  | head scope call args => exact ⟨grown h.1, h.2.trans grown⟩
  | argument f scope values rest =>
    exact ⟨h.1.trans grown, grown h.2.1, h.2.2.1.trans grown, h.2.2.2.trans grown⟩
  | next next => exact fun largest more => h largest (grown.trans more)
  | tracing before => trivial
  | leave tracing depth => trivial

/-- An evaluation that stays in its territory. -/
structure Config.Within (region : Set ScopeId) (c : Config) : Prop where
  unmade : ∀ id, ¬ c.machine.store.Has id → id ∈ region
  closed : c.machine.store.Closed (c.machine.store.territory region)
  task : c.task.Within (c.machine.store.territory region)
  pending : ∀ p ∈ c.pending, p.Within (c.machine.store.territory region)

namespace Config.Within

variable {w : World} {c d : Config}

/-- A step that leaves the store alone has only the tasks to look after. -/
theorem keep (h : c.Within region) (same : d.machine.store = c.machine.store)
    (task : d.task.Within (c.machine.store.territory region))
    (pending : ∀ p ∈ d.pending, p.Within (c.machine.store.territory region)) :
    d.Within region ∧ c.machine.store.Next region d.machine.store := by
  refine ⟨⟨?_, ?_, ?_, ?_⟩, ?_⟩ <;> rw [same]
  · exact h.unmade
  · exact h.closed
  · exact task
  · exact pending
  · exact .refl region _

theorem called {territory : Set ScopeId} {scope : ScopeId} {call args : Expr} {f : Function}
    (there : scope ∈ territory) (known : args.captured ⊆ territory)
    (code : f.code.captured ⊆ territory) : (Task.called scope call args f).Within territory := by
  unfold Task.called
  split
  · trivial
  · rename_i items proper
    split
    · exact ⟨code, there, (Sexp.capturedAll_properItems? proper).trans_subset known⟩
    · exact ⟨code, there, by simp, known⟩

/-- What follows a computation that leaves the store alone. -/
theorem after {α : Type} (h : c.Within region) {ps : List Pending}
    {r : EStateM.Result Error Machine α} {task : α → Task}
    (same : (finalMachine r).store = c.machine.store)
    (ok : ∀ a m, r = .ok a m → (task a).Within (c.machine.store.territory region))
    (pending : ∀ p ∈ ps, p.Within (c.machine.store.territory region)) :
    (Config.after ps r task).Within region ∧
      c.machine.store.Next region (Config.after ps r task).machine.store := by
  cases r with
  | ok a m => exact h.keep same (ok a m rfl) pending
  | error e m => exact h.keep same trivial pending

variable {ps : List Pending} {m : Machine}

theorem stepEval {scope : ScopeId} {e : Expr} (h : Config.Within region ⟨.eval scope e, ps, m⟩) :
    (Config.stepEval scope e ps m).Within region ∧
      m.store.Next region (Config.stepEval scope e ps m).machine.store := by
  obtain ⟨there, known⟩ := h.task
  cases e with
  | symbol name =>
    unfold Config.stepEval
    dsimp only
    split
    · rename_i v found
      exact h.keep rfl (h.closed.value? there found) h.pending
    · exact h.keep rfl trivial h.pending
  | pair id mark head args =>
    rw [Sexp.captured_pair, Set.union_subset_iff] at known
    cases atom : head.isPair with
    | true =>
      cases head with
      | pair id' mark' car cdr =>
        exact h.keep rfl ⟨there, known.1⟩ (List.forall_mem_cons.mpr ⟨⟨there, known.2⟩, h.pending⟩)
      | _ => cases atom
    | false =>
      rw [stepEval_of_isAtom atom]
      obtain ⟨same, found⟩ := headFunction_cases scope head m.countEvaluation
      refine h.after same (fun f m' ok => called there known.2 ?_) h.pending
      rcases found f m' ok with rfl | ⟨name, found⟩
      · exact (Sexp.captured_function f).symm.trans_subset known.1
      · exact (Sexp.captured_function f).symm.trans_subset (h.closed.function? there found)
  | _ => exact h.keep rfl known h.pending

/-- A request that is answered. This is the only step that may change the store. -/
theorem perform {x : Effect} {next : x.Answer → Program Expr}
    (h : Config.Within region ⟨.run (.perform x next), ps, m⟩) :
    (Config.stepRun w (.perform x next) ps m).Within region ∧
      m.store.Next region (Config.stepRun w (.perform x next) ps m).machine.store := by
  obtain ⟨within, later⟩ := h.task
  have revised := revised_perform w x m
  obtain ⟨closed, extended⟩ := revised.closed h.closed h.unmade within
  have unmade : ∀ id, ¬ (finalMachine (x.perform w m)).store.Has id → id ∈ region :=
    fun id no => h.unmade id fun has => no (extended.has id has)
  have pending : ∀ p ∈ ps, p.Within ((finalMachine (x.perform w m)).store.territory region) :=
    fun p mem => (h.pending p mem).mono extended.territory
  show (Config.after ps (x.perform w m) fun a => .run (next a)).Within region ∧
    m.store.Next region (Config.after ps (x.perform w m) fun a => .run (next a)).machine.store
  cases result : x.perform w m with
  | ok a m' =>
    rw [result] at unmade closed extended pending revised
    have answer := answerWithin_perform h.closed h.unmade within result
    exact ⟨⟨unmade, closed, later _ extended.territory a answer, pending⟩,
      ⟨x, within, revised⟩⟩
  | error e m' =>
    rw [result] at unmade closed pending revised
    exact ⟨⟨unmade, closed, trivial, pending⟩, ⟨x, within, revised⟩⟩

theorem stepRun {p : Program Expr} (h : Config.Within region ⟨.run p, ps, m⟩) :
    (Config.stepRun w p ps m).Within region ∧
      m.store.Next region (Config.stepRun w p ps m).machine.store := by
  have waiting : ∀ rest : Expr → Program Expr,
      (∀ larger, m.store.territory region ⊆ larger → ∀ v : Expr, v.captured ⊆ larger →
        (rest v).Confined larger Program.Value) →
      ∀ q ∈ .next rest :: ps, Pending.Within (m.store.territory region) q :=
    fun rest later => List.forall_mem_cons.mpr ⟨later, h.pending⟩
  cases p with
  | done v => exact h.keep rfl h.task h.pending
  | fail e => exact h.keep rfl trivial h.pending
  | perform x next => exact perform h
  | eval scope e next => exact h.keep rfl h.task.1 (waiting next h.task.2)
  | call f args scope next =>
    obtain ⟨⟨code, known, there⟩, later⟩ := h.task
    exact h.keep rfl ⟨code, there, known⟩ (waiting next later)
  | traced scope e next =>
    exact h.keep rfl h.task.1 (List.forall_mem_cons.mpr ⟨trivial, waiting next h.task.2⟩)

theorem stepValue {v : Expr} {p : Pending} (h : Config.Within region ⟨.value v, p :: ps, m⟩) :
    (Config.stepValue v p ps m).Within region ∧
      m.store.Next region (Config.stepValue v p ps m).machine.store := by
  obtain ⟨first, rest⟩ := List.forall_mem_cons.mp h.pending
  have value : v.captured ⊆ m.store.territory region := h.task
  cases p with
  | head scope call args =>
    have atom := functionOfValue_eq v m
    refine h.after (r := functionOfValue v m) ?_ (fun f m' ok => called first.1 first.2 ?_) rest
    · rw [atom]
      split <;> rfl
    · rw [atom] at ok
      split at ok <;> cases ok
      exact (Sexp.captured_function f).symm.trans_subset value
  | argument f scope values args =>
    obtain ⟨code, there, known, later⟩ := first
    refine h.keep rfl ⟨code, there, ?_, later⟩ rest
    rw [capturedAll_cons]
    exact Set.union_subset value known
  | next next => exact h.keep rfl (first _ subset_rfl v value) rest
  | tracing before => exact h.keep rfl value rest
  | leave tracing depth => exact h.keep (store_leaveCall m tracing depth (.ok v)) value rest

theorem stepError {e : Error} {p : Pending} (h : Config.Within region ⟨.error e, p :: ps, m⟩) :
    (Config.stepError e p ps m).Within region ∧
      m.store.Next region (Config.stepError e p ps m).machine.store := by
  have rest := (List.forall_mem_cons.mp h.pending).2
  cases p with
  | leave tracing depth => exact h.keep (store_leaveCall m tracing depth (.error e)) trivial rest
  | _ => exact h.keep rfl trivial rest

/-- One step of an evaluation stays in the territory. -/
theorem step (library : w.registered = #[]) (h : c.Within region) (next : c.step w = some d) :
    d.Within region ∧ c.machine.store.Next region d.machine.store := by
  obtain ⟨task, ps, m⟩ := c
  cases task with
  | eval scope e =>
    cases next
    exact stepEval h
  | arguments f scope values rest =>
    obtain ⟨code, there, known, later⟩ := h.task
    cases rest with
    | pair id mark e rest =>
      cases next
      rw [Sexp.captured_pair, Set.union_subset_iff] at later
      exact h.keep rfl ⟨there, later.1⟩
        (List.forall_mem_cons.mpr ⟨⟨code, there, known, later.2⟩, h.pending⟩)
    | _ =>
      cases next
      exact h.keep rfl ⟨code, there, (capturedAll_mono fun _ => List.mem_reverse.mp).trans known⟩
        h.pending
  | apply f args scope =>
    obtain ⟨code, there, known⟩ := h.task
    simp only [Config.step, Option.some.injEq] at next
    subst next
    split
    · exact h.keep rfl trivial h.pending
    · exact h.keep (store_enterCall m f.name args)
        (Function.confined_program library h.closed.root there code known)
        (List.forall_mem_cons.mpr ⟨trivial, h.pending⟩)
  | run p =>
    cases next
    exact stepRun h
  | value v =>
    cases ps with
    | nil => cases next
    | cons p ps =>
      cases next
      exact stepValue h
  | error e =>
    cases ps with
    | nil => cases next
    | cons p ps =>
      cases next
      exact stepError h

/-- A whole run stays in the territory. -/
theorem reaches (library : w.registered = #[]) (h : c.Within region) (steps : Reaches w c d) :
    d.Within region ∧ c.machine.store.Extends d.machine.store region := by
  induction steps with
  | refl => exact ⟨h, .refl _ region⟩
  | tail _ next ih =>
    obtain ⟨within, x, known, revised⟩ := ih.1.step library next
    exact ⟨within, ih.2.trans (revised.closed ih.1.closed ih.1.unmade known).2⟩

end Config.Within

end Lisp
