import Lisp.Proofs.ImmediateCalls
import Lisp.Proofs.OpenedScopes

/-!
# Bindings one after the other

`(let* (b b' ...) body ...)` does the same as `(let (b) (let* (b' ...) body ...))`: it opens a
scope for each binding, in which the rest is evaluated. An initial expression is evaluated
below the scopes of the bindings before its own, and a closure that it makes captures these.
From there exactly these bindings are seen, whatever is bound later.
-/

namespace Lisp

open Likeness

/-- A well-formed binding of a name, with the expression for its value if there is one. -/
inductive Sexp.IsBinding : Expr → String → Option Expr → Prop where
  | name (name : String) : IsBinding (.symbol name) name none
  | alone (id : ObjectId) (mark : Option Mark) (name : String) :
      IsBinding (.pair id mark (.symbol name) .nil) name none
  | initial {b e : Expr} {name : String} :
      b.properItems? = some [.symbol name, e] → IsBinding b name (some e)

namespace Library

variable {site : Site} {scope : ScopeId} {b : Expr} {name : String} {initial? : Option Expr}

theorem binding_of_isBinding (h : b.IsBinding name initial?) (site : Site) :
    binding site b = .ok (name, initial?) := by
  cases h with
  | name name => rfl
  | alone id mark name => rfl
  | initial items => exact binding_of_properItems? site items

/-- Opens a scope for a name whose initial expression is evaluated outside of it. -/
def openFor (scope : ScopeId) (name : String) (initial? : Option Expr) : Program ScopeId := do
  let v ← initialValue scope initial?
  Program.enter scope [(name, v)]

/-- Opens the scope of one binding. -/
def openScope (site : Site) (scope : ScopeId) (b : Expr) : Program ScopeId := do
  let (name, initial?) ← binding site b
  openFor scope name initial?

theorem openScope_eq (h : b.IsBinding name initial?) (site : Site) (scope : ScopeId) :
    openScope site scope b = openFor scope name initial? := by
  rw [openScope, binding_of_isBinding h]
  rfl

/-- What is left of `let*` when the initial expression of a binding is about to be evaluated in
a scope. -/
def fromBinding (site : Site) (around : ScopeId) (b : Expr) (after body : List Expr) :
    Program Expr := do
  let inner ← openScope site around b
  let last ← nestedScope site inner after
  Program.evalBody last body

theorem nestedScope_cons (site : Site) (scope : ScopeId) (b : Expr) (bs : List Expr) :
    nestedScope site scope (b :: bs) =
      openScope site scope b >>= fun inner => nestedScope site inner bs := by
  simp only [nestedScope, openScope, openFor, bind_assoc]

/-- The scopes of the first bindings are opened before the initial expression of the next is
evaluated, and it is evaluated in the last of them. -/
theorem nestedScope_append (site : Site) (scope : ScopeId) (before after : List Expr) :
    nestedScope site scope (before ++ after) =
      before.foldlM (openScope site) scope >>= fun around => nestedScope site around after := by
  induction before generalizing scope with
  | nil => rfl
  | cons b before ih =>
    rw [List.cons_append, nestedScope_cons, List.foldlM_cons, bind_assoc]
    simp only [ih]

/-- What is read of a binding does not depend on the scope. -/
theorem nestedScope_site (name : String) (scope scope' inner : ScopeId) (bs : List Expr) :
    nestedScope ⟨name, scope⟩ inner bs = nestedScope ⟨name, scope'⟩ inner bs := by
  induction bs generalizing inner with
  | nil => rfl
  | cons b bs ih =>
    simp only [nestedScope_cons, ih]
    rfl

/-- What `let*` does with its bindings and its body. -/
theorem supply_letSequential {bindings : Expr} {bs : List Expr} (scope : ScopeId)
    (items : bindings.properItems? = some bs) (body : List Expr) :
    Builtin.letSequential.body.supply ⟨"let*", scope⟩ (bindings :: body) =
      .ok (nestedScope ⟨"let*", scope⟩ scope bs >>= fun inner => Program.evalBody inner body) := by
  change Except.ok (_ >>= _) = _
  rw [Site.list_of_properItems? items]
  rfl

/-- What it does up to a binding, and from there on. -/
theorem program_letSequential {letStar : Function} (code : letStar.code = .builtin .letSequential)
    {bindings : Expr} {before after : List Expr}
    (items : bindings.properItems? = some (before ++ b :: after)) (w : World) (scope : ScopeId)
    (body : List Expr) :
    letStar.program w (bindings :: body) scope =
      before.foldlM (openScope ⟨"let*", scope⟩) scope >>= fun around =>
        fromBinding ⟨"let*", scope⟩ around b after body := by
  rw [Function.program_builtin code (supply_letSequential scope items body), nestedScope_append,
    bind_assoc]
  simp only [nestedScope_cons, fromBinding, bind_assoc]

/-- What `let` does with one binding and a body. -/
theorem supply_letParallel {bindings : Expr} (scope : ScopeId)
    (items : bindings.properItems? = some [b]) (h : b.IsBinding name initial?) (body : List Expr) :
    Builtin.letParallel.body.supply ⟨"let", scope⟩ (bindings :: body) =
      .ok (openFor scope name initial? >>= fun inner => Program.evalBody inner body) := by
  change Except.ok (_ >>= _) = _
  rw [Site.list_of_properItems? items]
  have values : initialValues ⟨"let", scope⟩ [b] =
      initialValue scope initial? >>= fun v => pure [(name, v)] := by
    rw [initialValues, binding_of_isBinding h]
    rfl
  refine congrArg Except.ok ?_
  change initialValues ⟨"let", scope⟩ [b] >>= _ = _
  rw [values, openFor, bind_assoc, bind_assoc]
  rfl

end Library

open Library

section Parts

variable {w : World} {ρ : Likeness} (uniform : w.Uniform) (itself : ρ.Reflexive) (n k : Nat)

include uniform itself

theorem endAlike_openFor (scope : ScopeId) (name : String) (initial? : Option Expr) :
    ρ.EndAlike (fun _ => Eq) ((openFor scope name initial?).run w (applyWithin w n))
      ((openFor scope name initial?).run w (applyWithin w k)) := by
  refine endAlike_run uniform n k fun o => ?_
  have known : Option.Rel ρ.Like initial? initial? := by
    cases initial? with
    | none => exact .none
    | some e => exact .some (itself.like e)
  refine (likeProgram_initialValue scope known).bind fun σ le v v' value => ?_
  have bound : σ.LikeBinding (name, v) (name, v') := ⟨rfl, value⟩
  exact .ask (.enter scope (.cons bound .nil))

/-- What is left of `let*` after a binding, and a `let*` form of it. -/
theorem endAlike_rest (scope inner : ScopeId) {rest nested : Expr} {bs body : List Expr}
    (items : rest.properItems? = some bs) (calls : nested.Calls .letSequential (rest :: body)) :
    ρ.EndAlike Like
      ((nestedScope ⟨"let*", scope⟩ inner bs >>= fun last => Program.evalBody last body).run w
        (applyWithin w n))
      (evaluate (applyWithin w k) inner nested) := by
  refine endAlike_calls_right calls rfl (supply_letSequential inner items body) (fun k => ?_) k
  rw [nestedScope_site "let*" scope inner]
  refine endAlike_run uniform n k fun o => ?_
  refine (likeProgram_nestedScope inner (itself.likeAll bs)).bind fun σ le last last' same => ?_
  subst same
  exact likeProgram_evalBody last ((itself.mono le).likeAll body)

/-- A first binding and the rest of `let*`, and `let` around a `let*` form of the rest. -/
theorem endAlike_letSequential (scope : ScopeId) {b rest nested : Expr} {bs body : List Expr}
    {name : String} {initial? : Option Expr} (first : b.IsBinding name initial?)
    (items : rest.properItems? = some bs) (calls : nested.Calls .letSequential (rest :: body)) :
    ρ.EndAlike Like
      ((nestedScope ⟨"let*", scope⟩ scope (b :: bs) >>= fun last =>
        Program.evalBody last body).run w (applyWithin w n))
      ((openFor scope name initial? >>= fun inner => Program.evalBody inner [nested]).run w
        (applyWithin w k)) := by
  rw [nestedScope_cons, openScope_eq first, bind_assoc, Program.run_andThen, Program.run_andThen]
  refine (endAlike_openFor uniform itself n k scope name initial?).bind
    fun σ le inner inner' same => ?_
  subst same
  have whole : (Program.evalBody inner [nested]).run w (applyWithin w k) =
      evaluate (applyWithin w k) inner nested := bind_pure _
  rw [whole]
  exact endAlike_rest uniform (itself.mono le) n k scope inner items calls

end Parts

section Runs

open Config

variable {w : World} {n : Nat} {m m' : Machine} {ps : List Pending}

theorem exists_of_bind_ok {α β : Type} {run : Run α} {rest : α → Run β} {b : β}
    (ran : (run >>= rest) m = .ok b m') : ∃ a m₁, run m = .ok a m₁ ∧ rest a m₁ = .ok b m' := by
  cases result : run m with
  | ok a m₁ => exact ⟨a, m₁, rfl, (bind_of_ok result).symm.trans ran⟩
  | error e m₁ => cases (bind_of_error result).symm.trans ran

/-- A computation that returns hands its value to the program that waits for it. -/
theorem reaches_next {c : Config} {run : Run Expr} (next : Expr → Program Expr) {v : Expr}
    (first : Reaches w c (after (.next next :: ps) (run m) .value) ∧
      (finalMachine (run m)).depth = m.depth)
    (returned : run m = .ok v m') : Reaches w c ⟨.run (next v), ps, m'⟩ ∧ m'.depth = m.depth := by
  rw [returned] at first
  exact ⟨first.1.tail rfl, first.2⟩

/-- When the first part of a program returns, its run leads to the second part. -/
theorem reaches_of_run {α : Type} (p : Program α) (next : α → Program Expr) {a : α}
    (room : w.maxDepth - m.depth = n) (ran : p.run w (applyWithin w n) m = .ok a m') :
    Reaches w ⟨.run (p >>= next), ps, m⟩ ⟨.run (next a), ps, m'⟩ ∧ m'.depth = m.depth := by
  have applied := computes_applyWithin w n
  induction p generalizing m with
  | done b =>
    cases ran
    exact ⟨.refl, rfl⟩
  | fail e => cases ran
  | perform x rest ih =>
    obtain ⟨b, m₁, answered, ran⟩ := exists_of_bind_ok ran
    have kept := keepsDepth_perform w x m
    rw [answered] at kept
    have same : m₁.depth = m.depth := kept
    obtain ⟨later, kept'⟩ := ih b (by rwa [same]) ran
    have first : Config.step w ⟨.run (.perform x rest >>= next), ps, m⟩ =
        some ⟨.run (rest b >>= next), ps, m₁⟩ := by
      change some (after ps (x.perform w m) _) = _
      rw [answered]
      rfl
    exact ⟨.head first later, kept'.trans same⟩
  | eval scope e rest ih =>
    obtain ⟨v, m₁, returned, ran⟩ := exists_of_bind_ok ran
    obtain ⟨reached, same⟩ := reaches_next (fun v => rest v >>= next)
      ((computes_evaluate applied scope e).1 _ m room) returned
    obtain ⟨later, kept⟩ := ih v (by rwa [same]) ran
    exact ⟨.head rfl (reached.trans later), kept.trans same⟩
  | call f args scope rest ih =>
    obtain ⟨v, m₁, returned, ran⟩ := exists_of_bind_ok ran
    obtain ⟨reached, same⟩ := reaches_next (fun v => rest v >>= next)
      (applied f args scope _ m room) returned
    obtain ⟨later, kept⟩ := ih v (by rwa [same]) ran
    exact ⟨.head rfl (reached.trans later), kept.trans same⟩
  | traced scope e rest ih =>
    obtain ⟨v, m₁, returned, ran⟩ := exists_of_bind_ok ran
    obtain ⟨reached, same⟩ := reaches_next (fun v => rest v >>= next)
      (reaches_traced (computes_evaluate applied scope e).1 _ room) returned
    obtain ⟨later, kept⟩ := ih v (by rwa [same]) ran
    exact ⟨.head rfl (reached.trans later), kept.trans same⟩

/-- The scope in which the initial expression of a binding is evaluated has been opened for the
names of the bindings before. -/
theorem opened_of_run (library : w.registered = #[]) {site : Site} {base scope around : ScopeId}
    {before : List Expr} {names others : List String} {next : ScopeId → Program Expr}
    (bindings : List.Forall₂ (fun b name => ∃ initial?, b.IsBinding name initial?) before names)
    (coherent : m.store.Coherent) (has : m.store.Has base)
    (within : Config.Within Set.univ
      ⟨.run (before.foldlM (openScope site) scope >>= next), ps, m⟩)
    (opened : m.store.Opened base others scope) (room : w.maxDepth - m.depth = n)
    (ran : (before.foldlM (openScope site) scope).run w (applyWithin w n) m = .ok around m') :
    m'.store.Opened base (names.reverse ++ others) around := by
  induction bindings generalizing scope others m with
  | nil =>
    cases ran
    exact opened
  | @cons b name before names first _ ih =>
    obtain ⟨initial?, first⟩ := first
    rw [List.foldlM_cons, openScope_eq first] at within ran
    rw [openFor, bind_assoc, bind_assoc] at within
    rw [Program.run_andThen, openFor, Program.run_andThen] at ran
    obtain ⟨inner, m₁, entered, ran⟩ := exists_of_bind_ok ran
    obtain ⟨v, m₂, valued, entered⟩ := exists_of_bind_ok entered
    obtain ⟨steps, depth⟩ := reaches_of_run (initialValue scope initial?)
      (fun v => Program.enter scope [(name, v)] >>= fun inner =>
        before.foldlM (openScope site) inner >>= next) room valued
    have coherent' := (coherent.reaches library within steps).1
    have there : m₂.store.Has base := (within.reaches library steps).2.has base has
    have opened' := opened.reaches library coherent within steps has
    cases entered
    have within' := ((within.reaches library steps).1.reaches library (.single rfl)).1
    rw [List.reverse_cons, List.append_assoc]
    exact ih (coherent'.enter (opened'.has there) [(name, v)]).1
      ((m₂.store.has_enter scope _).mpr (.inl there)) within'
      (opened'.enter coherent' there name v) (by rwa [← depth] at room) ran

end Runs

/-- `#'(lambda (p ...) e ...)`. -/
def Sexp.IsClosureForm (ps : List String) (es : List Expr) (e : Expr) : Prop :=
  ∃ abstraction list : Expr, e.properItems? = some [.symbol "function", abstraction] ∧
    abstraction.properItems? = some (.symbol "lambda" :: list :: es) ∧
    list.properItems? = some (ps.map .symbol)

/-- What closures that are made in a scope at some moment see: they capture the scope, their
bodies are evaluated below it wherever they are called from, and from the scope exactly the
given names are seen besides what its base sees, at this moment and at all later ones. -/
structure World.ClosuresSee (w : World) (moment : Config) (base : ScopeId) (names : List String)
    (around : ScopeId) : Prop where
  capture : ∀ (n : Nat) (ps : List String) (es : List Expr) (e : Expr), e.IsClosureForm ps es →
    moment.machine.store.Names .function → moment.machine.store.Names .lambda →
    ∃ id m, evaluate (applyWithin w (n + 2)) around e moment.machine =
      .ok (.function (.object id (.closure ps es around))) m
  call : ∀ (f : Function) (ps : List String) (es args : List Expr) (caller : ScopeId),
    f.code = .closure ps es around → args.length = ps.length →
    f.program w args caller =
      Program.enter around (ps.zip args) >>= fun inner => Program.evalBody inner es
  sees : ∀ c, Config.Reaches w moment c → c.machine.store.Sees base names around

/-- Below scopes that were opened for some names, closures see these names. -/
theorem Store.Opened.closuresSee {w : World} {moment : Config} {base around : ScopeId}
    {names : List String} (h : moment.machine.store.Opened base names around)
    (library : w.registered = #[]) (coherent : moment.machine.store.Coherent)
    (within : moment.Within Set.univ) (has : moment.machine.store.Has base) :
    w.ClosuresSee moment base names around where
  capture n ps es e isClosure function lambda := by
    obtain ⟨abstraction, list, form, items, parameters⟩ := isClosure
    have closure : Returns (evaluate (applyWithin w (n + 2)) around e) moment.machine.store
        fun v _ => ∃ id, v = .function (.object id (.closure ps es around)) :=
      returns_functionOf ps coherent (h.has has) function lambda form items parameters
        fun id => ⟨id, rfl⟩
    obtain ⟨v, m, returned, id, rfl⟩ := closure moment.machine rfl
    exact ⟨id, m, returned⟩
  call f ps es args caller code fits := by
    rw [Function.program, code]
    exact bodyProgram_eq fits _ _ _
  sees c later :=
    (h.reaches library coherent within later has).sees (coherent.reaches library within later).1
      ((within.reaches library later).2.has base has)

/-- `let*` with at least one binding does the same as `let` with the first binding alone around
a `let*` form with the others. The initial expression of each binding is evaluated in a scope
from which exactly the bindings before it are seen, and closures that are made there see these
from then on, whatever is bound later. -/
theorem World.apply_letSequential (w : World) (m : Machine) (scope : ScopeId)
    (letStar : Function) (code : letStar.code = .builtin .letSequential) (bindings : Expr)
    (body : List Expr) :
    (w.Uniform → ∀ (letOnce : Function) (b single rest nested : Expr) (bs : List Expr)
        (name : String) (initial? : Option Expr), bindings.properItems? = some (b :: bs) →
      b.IsBinding name initial? → letOnce.code = .builtin .letParallel →
      single.properItems? = some [b] → rest.properItems? = some bs →
      nested.Calls .letSequential (rest :: body) →
      ¬ Overflowed (w.apply letStar (bindings :: body) scope m) →
      ¬ Overflowed (w.apply letOnce [single, nested] scope m) →
      SameEnd (w.apply letStar (bindings :: body) scope m)
        (w.apply letOnce [single, nested] scope m)) ∧
    (w.registered = #[] → m.depth < w.maxDepth → m.store.Coherent → ∀ ps : List Pending,
      Config.Within Set.univ ⟨.apply letStar (bindings :: body) scope, ps, m⟩ →
      ∀ (before after : List Expr) (b : Expr) (names : List String),
      bindings.properItems? = some (before ++ b :: after) →
      List.Forall₂ (fun b name => ∃ initial?, b.IsBinding name initial?) before names →
      ∀ (around : ScopeId) (m₁ : Machine),
      w.run (before.foldlM (openScope ⟨"let*", scope⟩) scope)
        (m.enterCall letStar.name (bindings :: body)) = .ok around m₁ →
      ∃ moment : Config, moment = ⟨.run (fromBinding ⟨"let*", scope⟩ around b after body),
          .leave m.tracing m.depth :: ps, m₁⟩ ∧
        Config.Reaches w ⟨.apply letStar (bindings :: body) scope, ps, m⟩ moment ∧
        w.ClosuresSee moment scope names.reverse around) := by
  refine ⟨?_, ?_⟩
  · intro uniform letOnce b single rest nested bs name initial? items first onceCode singleItems
      restItems calls answered answered'
    suffices ends : LikeEnd LikeMachine Like (same m.objects)
        (w.apply letStar (bindings :: body) scope m) (w.apply letOnce [single, nested] scope m) from
      .of_likeEnd ends answered answered'
    rw [World.apply, World.apply]
    cases w.maxDepth - m.depth with
    | zero => exact .refused (.inl trivial)
    | succ n =>
      have left := sameEnd_applyWithin w n letStar (bindings :: body) scope m
      have right := sameEnd_applyWithin w n letOnce [single, nested] scope m
      rw [Function.program_builtin code (supply_letSequential scope items body)] at left
      rw [Function.program_builtin onceCode (supply_letParallel scope singleItems first _)] at right
      have state := (likeMachine_same (.refl m)).of_agrees
        (.enterCall m letStar.name (bindings :: body)) (.enterCall m letOnce.name [single, nested])
      exact (endAlike_letSequential uniform (reflexive_same m.objects) n n scope first restItems
        calls _ _ state).congr left right
  · intro library room coherent ps within before after b names items wellFormed around m₁ ran
    have entered : Config.step w ⟨.apply letStar (bindings :: body) scope, ps, m⟩ =
        some ⟨.run (letStar.program w (bindings :: body) scope), .leave m.tracing m.depth :: ps,
          m.enterCall letStar.name (bindings :: body)⟩ := by
      simp [Config.step, room]
    have there : m.store.Has scope := within.task.2.1.2
    have begun := (within.reaches library (.single entered)).1
    rw [program_letSequential code items] at entered begun
    have unchanged := store_enterCall m letStar.name (bindings :: body)
    have opened := opened_of_run library wellFormed (unchanged ▸ coherent) (unchanged ▸ there) begun
      .base rfl ran
    rw [List.append_nil] at opened
    have steps : Config.Reaches w _ ⟨_, .leave m.tracing m.depth :: ps, m₁⟩ := (reaches_of_run _
      (fun around => fromBinding ⟨"let*", scope⟩ around b after body) rfl ran).1
    obtain ⟨within', extended⟩ := begun.reaches library steps
    exact ⟨_, rfl, .head entered steps, opened.closuresSee library
      (Store.Coherent.reaches library (unchanged ▸ coherent) begun steps).1 within'
      (extended.has scope (unchanged ▸ there))⟩

/-- `(x 1)`. -/
def firstBinding : Expr := listFrom 0 [.symbol "x", .integer 1]

/-- `(f #'(lambda () x))`. -/
def closureBinding : Expr :=
  listFrom 2
    [.symbol "f", listFrom 4 [.symbol "function", listFrom 6 [.symbol "lambda", .nil, .symbol "x"]]]

/-- `(x 2)`. -/
def laterBinding : Expr := listFrom 9 [.symbol "x", .integer 2]

/-- `(((x 1) (f #'(lambda () x)) (x 2)) (funcall f))`. -/
def sequentialArgs : List Expr :=
  [listFrom 11 [firstBinding, closureBinding, laterBinding],
    listFrom 14 [.symbol "funcall", .symbol "f"]]

/-- `(((x 1)) (let* ((f #'(lambda () x)) (x 2)) (funcall f)))`. -/
def nestedArgs : List Expr :=
  [listFrom 16 [firstBinding],
    listFrom 17 [builtinObject .letSequential, listFrom 20 [closureBinding, laterBinding],
      listFrom 14 [.symbol "funcall", .symbol "f"]]]

theorem captured_listFrom (n : Nat) (es : List Expr) : (listFrom n es).captured = capturedAll es :=
  (Sexp.capturedAll_properItems? (properItems?_listFrom n es)).symm

theorem World.apply_letSequential_capturing :
    let letStar : Function := .object ⟨0⟩ (.builtin .letSequential)
    let letOnce : Function := .object ⟨0⟩ (.builtin .letParallel)
    SameEnd (World.apply {} letStar sequentialArgs Store.root Machine.initial)
        (World.apply {} letOnce nestedArgs Store.root Machine.initial) ∧
      ∃ (around : ScopeId) (m : Machine),
        World.run {} ([firstBinding].foldlM (openScope ⟨"let*", Store.root⟩) Store.root)
          (Machine.initial.enterCall letStar.name sequentialArgs) = .ok around m ∧
        m.store.Sees Store.root ["x"] around := by
  intro letStar letOnce
  have answered : ¬ Overflowed (World.apply {} letStar sequentialArgs Store.root Machine.initial) :=
    not_overflowed_of_isOk (by decide +kernel)
  have answered' : ¬ Overflowed (World.apply {} letOnce nestedArgs Store.root Machine.initial) :=
    not_overflowed_of_isOk (by decide +kernel)
  have library := Store.isLibrary_withBuiltins
  have nothing : capturedAll sequentialArgs = ∅ := by
    simp [sequentialArgs, firstBinding, closureBinding, laterBinding, captured_listFrom]
  have within : Config.Within Set.univ
      ⟨.apply letStar sequentialArgs Store.root, [], Machine.initial⟩ := by
    have there : Store.root ∈ Machine.initial.store.territory Set.univ :=
      ⟨trivial, library.coherent.has_root⟩
    refine ⟨fun _ _ => trivial, library.closed, ⟨?_, there, ?_⟩, nofun⟩
    · simp [letStar, Code.captured, Code.scope?, Code.body, Function.code]
    · rw [nothing]
      exact Set.empty_subset _
  obtain ⟨nested, moments⟩ := World.apply_letSequential {} Machine.initial Store.root letStar rfl
    (listFrom 11 [firstBinding, closureBinding, laterBinding])
    [listFrom 14 [.symbol "funcall", .symbol "f"]]
  refine ⟨nested (uniform_of_unregistered rfl) letOnce firstBinding _ _ _
    [closureBinding, laterBinding] _ _ rfl (.initial rfl) rfl rfl rfl ⟨_, rfl, rfl⟩ answered
    answered', ?_⟩
  obtain ⟨around, m, opened⟩ : ∃ around m,
      World.run {} ([firstBinding].foldlM (openScope ⟨"let*", Store.root⟩) Store.root)
        (Machine.initial.enterCall letStar.name sequentialArgs) = .ok around m := ⟨_, _, rfl⟩
  refine ⟨around, m, opened, ?_⟩
  have names : List.Forall₂ (fun b name => ∃ initial?, Sexp.IsBinding b name initial?)
      [firstBinding] ["x"] := .cons ⟨_, .initial rfl⟩ .nil
  obtain ⟨moment, rfl, -, closures⟩ := moments rfl (by decide) library.coherent [] within
    [firstBinding] [laterBinding] closureBinding ["x"] rfl names around m opened
  exact closures.sees _ .refl

/-- The closure sees the binding before it. -/
example : ((outcome (World.apply {} (.object ⟨0⟩ (.builtin .letSequential)) sequentialArgs
    Store.root Machine.initial)).toOption.map Sexp.text) = some "1" := by
  decide +kernel

end Lisp
