import Lisp.Proofs.CallForms
import Lisp.Proofs.SiteConfinement

/-!
# Three ways to call a function

A function that a symbol names can be called by the symbol, by `funcall` and by `apply` with
the list of its arguments. All three resolve the function before they evaluate the arguments,
and none asks again what the symbol stands for. With `funcall` the function runs one call
deeper than it does directly, and with `apply` on arguments that have gone through a list,
whose pairs are objects that the other two do not make.
-/

namespace Lisp

open Likeness

variable {w : World} {m : Machine} {scope : ScopeId} {f g : Function} {e : Expr}

/-- A symbol names a function where it is looked up. -/
theorem run_function_symbol (apply : Applier) {name : String} (site : Site) (index : Nat)
    (named : m.store.function? site.scope name = some (.function g)) :
    (site.function index (.symbol name)).run w apply m = .ok g m := by
  have asked : (Effect.functionOf site.scope name).perform w m = .ok (some (.function g)) m :=
    congrArg (EStateM.Result.ok · m) named
  rw [Site.function, Program.run_andThen]
  exact bind_of_ok (bind_of_ok asked)

/-- `(function name)` has the function that the name stands for as its value, unless that is a
lambda, of which it makes a closure. -/
theorem exists_evaluate_named {name : String} (n : Nat) (code : f.code = .builtin .function)
    (stands : m.store.function? scope "function" = some (.function f))
    (named : m.store.function? scope name = some (.function g))
    (noLambda : ∀ ps body, g.code ≠ .lambda ps body)
    (form : e.properItems? = some [.symbol "function", .symbol name]) :
    ∃ m₁ : Machine, m₁.Agrees m ∧
      evaluate (applyWithin w (n + 1)) scope e m = .ok (.function g) m₁ := by
  obtain ⟨m₁, agrees, ends⟩ :=
    exists_specialForm (w := w) (n := n) form stands code rfl rfl
  rw [← agrees.store] at named
  have resolved :=
    run_function_symbol (w := w) (applyWithin w n) ⟨Builtin.function.name, scope⟩ 0 named
  simp only [Sexp.isPair, Bool.false_eq_true, if_false, pure_bind] at ends
  rw [Program.run_andThen, bind_of_ok resolved] at ends
  have returned : SameEnd (evaluate (applyWithin w (n + 1)) scope e m) (.ok (.function g) m₁) := by
    cases known : g.code with
    | lambda ps body => exact absurd known (noLambda ps body)
    | _ =>
      rw [known] at ends
      exact ends
  obtain ⟨m₂, evaluated, agrees'⟩ := returned.exists_ok
  exact ⟨m₂, agrees'.trans agrees, evaluated⟩

/-- A call whose first argument is `(function name)` is refused, or goes on with the function
that the name stood for at the start. -/
theorem evaluate_withNamed {name : String} {head named : Expr} {es : List Expr} {f' : Function}
    (n : Nat) (items : e.properItems? = some (head :: named :: es))
    (stands : HeadIs m.store scope f' head) (ordinary : f'.isSpecial = false)
    (namedItems : named.properItems? = some [.symbol "function", .symbol name])
    (code : f.code = .builtin .function)
    (functionStands : m.store.function? scope "function" = some (.function f))
    (found : m.store.function? scope name = some (.function g))
    (noLambda : ∀ ps body, g.code ≠ .lambda ps body) :
    Overflowed (evaluate (applyWithin w n) scope e m) ∨
      ∃ m₁ : Machine, m₁.Agrees m ∧ evaluate (applyWithin w n) scope e m =
        (es.mapM (evaluate (applyWithin w n) scope) >>= fun vs =>
          applyWithin w n f' (.function g :: vs) scope) m₁ := by
  obtain ⟨m₁, agrees, called⟩ := exists_evaluate_form (applyWithin w n) items stands
  rw [← agrees.store] at functionStands found
  rw [called]
  cases n with
  | zero =>
    exact .inl (overflowed_applyTo_cons ordinary
      (overflowed_specialForm namedItems functionStands code rfl))
  | succ n =>
    obtain ⟨m₂, agrees', evaluated⟩ :=
      exists_evaluate_named (w := w) n code functionStands found noLambda namedItems
    exact .inr ⟨m₂, agrees'.trans agrees, applyTo_cons ordinary evaluated⟩

section Applications

variable {ρ : Likeness} (uniform : w.Uniform) (n : Nat) {g' : Function} {vs vs' : List Expr}

include uniform

/-- A program that does nothing but call a function, as a function that is called itself. -/
theorem endAlike_calling (known : ρ.LikeAll vs vs') (function : ρ.LikeFunction g g')
    {args : List Expr} (k : Nat) (calls : f.program w args scope = .call g' vs' scope .done) :
    ρ.EndAlike Like (applyWithin w n g vs scope) (applyWithin w k f args scope) := by
  cases k with
  | zero => exact fun _ _ _ => .refused (.inr trivial)
  | succ k =>
    have inner := endAlike_applyWithin uniform n k function known scope
    have does : (f.program w args scope).run w (applyWithin w k) =
        applyWithin w k g' vs' scope := by
      rw [calls]
      exact bind_pure (applyWithin w k g' vs' scope)
    rw [← does] at inner
    exact inner.framed_right f.name args

theorem endAlike_funcall (code : f.code = .builtin .funcall) (function : ρ.LikeFunction g g')
    (known : ρ.LikeAll vs vs') (k : Nat) :
    ρ.EndAlike Like (applyWithin w n g vs scope)
      (applyWithin w k f (.function g' :: vs') scope) :=
  endAlike_calling uniform n known function k (Function.program_builtin code rfl)

theorem endAlike_apply (code : f.code = .builtin .apply) (function : ρ.LikeFunction g g')
    (known : ρ.LikeAll vs vs') {spread : Expr} (items : spread.properItems? = some vs') (k : Nat) :
    ρ.EndAlike Like (applyWithin w n g vs scope)
      (applyWithin w k f [.function g', spread] scope) := by
  refine endAlike_calling uniform n known function k ?_
  rw [Function.program_builtin code rfl]
  change (liftM (Site.list ⟨"apply", scope⟩ 1 spread) >>= fun vs =>
    Site.call ⟨"apply", scope⟩ g' vs : Program Expr) = _
  rw [Site.list_of_properItems? items]
  rfl

end Applications

/-- Items are put in front of a list one after the other, each in a new pair. -/
theorem exists_run_consAll (apply : Applier) (items : List Expr) {rest : Expr} {tail : List Expr}
    (ends : rest.properItems? = some tail) (m : Machine) :
    ∃ e, (Program.consAll rest items).run w apply m =
        .ok e { m with objects := m.objects + items.length } ∧
      e.properItems? = some (items.reverse ++ tail) := by
  induction items generalizing rest tail m with
  | nil => exact ⟨rest, rfl, ends⟩
  | cons item items ih =>
    have longer : (Sexp.pair ⟨m.objects⟩ none item rest : Expr).properItems? =
        some (item :: tail) := by
      rw [Sexp.properItems?_pair, ends]
      rfl
    obtain ⟨e, made, list⟩ := ih longer { m with objects := m.objects + 1 }
    refine ⟨e, ?_, by simpa using list⟩
    rw [List.length_cons, Nat.add_comm items.length, ← Nat.add_assoc]
    exact made

/-- `list` makes a list of its arguments, and as many new objects. -/
theorem exists_applyWithin_list (n : Nat) (code : f.code = .builtin .list) (scope : ScopeId)
    (vs : List Expr) (m : Machine) :
    ∃ (e : Expr) (m₁ : Machine), m₁.Agrees { m with objects := m.objects + vs.length } ∧
      applyWithin w (n + 1) f vs scope m = .ok e m₁ ∧ e.properItems? = some vs := by
  have ends := sameEnd_applyWithin w n f vs scope m
  rw [Function.program_builtin code rfl] at ends
  obtain ⟨e, made, list⟩ := exists_run_consAll (w := w) (applyWithin w n) vs.reverse
    Sexp.properItems?_nil (m.enterCall f.name vs)
  change SameEnd _ ((Program.consAll .nil vs.reverse).run w (applyWithin w n)
    (m.enterCall f.name vs)) at ends
  rw [made] at ends
  obtain ⟨m₁, evaluated, agrees⟩ := ends.exists_ok
  have entered := Machine.Agrees.enterCall m f.name vs
  refine ⟨e, m₁, agrees.trans ⟨entered.store, ?_, entered.printed, entered.requested⟩, evaluated,
    by simpa using list⟩
  rw [List.length_reverse]
  exact congrArg (· + vs.length) entered.objects

/-- Arguments that go through a list on the right alone. -/
theorem endAlike_applyList (uniform : w.Uniform) (n k : Nat) {ρ : Likeness} (settled : ρ.Settled)
    (function : ρ.LikeFunction g g) {args : List Expr} (known : ρ.LikeAll args args)
    {listFunction : Function} (listCode : listFunction.code = .builtin .list)
    (code : f.code = .builtin .apply) :
    ρ.EndAlike Like
      (args.mapM (evaluate (applyWithin w n) scope) >>= fun vs => applyWithin w n g vs scope)
      (args.mapM (evaluate (applyWithin w k) scope) >>= fun vs =>
        applyWithin w k listFunction vs scope >>= fun e =>
          applyWithin w k f [.function g, e] scope) := by
  refine (endAlike_mapM uniform n k scope known).bind fun σ le vs vs' values => ?_
  intro m m' state
  cases k with
  | zero => exact .refused (.inr trivial)
  | succ k =>
    obtain ⟨e, m₁, agrees, made, items⟩ :=
      exists_applyWithin_list (w := w) k listCode scope vs' m'
    have settled := settled.mono le
    have le' := σ.le_skip settled vs'.length
    rw [bind_of_ok made]
    exact (endAlike_apply uniform n code (function.mono (le.trans le')) (LikeAll.mono le' values)
      items (k + 1) m m₁ ((state.skip settled vs'.length).of_agrees (.refl m) agrees)).mono le'

/-- `(funcall #'name a ...)`. -/
def Sexp.IsFuncall (name : String) (args : List Expr) (e : Expr) : Prop :=
  ∃ named : Expr, e.properItems? = some (.symbol "funcall" :: named :: args) ∧
    named.properItems? = some [.symbol "function", .symbol name]

/-- `(apply #'name (list a ...))`. -/
def Sexp.IsApplyList (name : String) (args : List Expr) (e : Expr) : Prop :=
  ∃ named list : Expr, e.properItems? = some [.symbol "apply", named, list] ∧
    named.properItems? = some [.symbol "function", .symbol name] ∧
    list.properItems? = some (.symbol "list" :: args)

section Forms

variable {ρ : Likeness} (uniform : w.Uniform) {name : String} {args : List Expr}
  (state : ρ.LikeMachine m m)
  (named : m.store.function? scope name = some (.function g)) (ordinary : g.isSpecial = false)
  (noLambda : ∀ ps body, g.code ≠ .lambda ps body) (function : ρ.LikeFunction g g)
  (known : ρ.LikeAll args args) (resolvesFunction : m.store.Resolves scope .function)
  {call : Expr} (isCall : call.properItems? = some (.symbol name :: args))

include uniform state named ordinary noLambda function known resolvesFunction isCall

theorem likeEnd_funcall (resolves : m.store.Resolves scope .funcall) {viaFuncall : Expr}
    (isFuncall : viaFuncall.IsFuncall name args) :
    LikeEnd LikeMachine Like ρ (w.eval scope call m) (w.eval scope viaFuncall m) := by
  obtain ⟨quoted, items, quotedItems⟩ := isFuncall
  obtain ⟨funcall, code, stands⟩ := resolves
  obtain ⟨quote, quoteCode, quoteStands⟩ := resolvesFunction
  rw [World.eval, World.eval]
  generalize w.maxDepth - m.depth = n
  rcases evaluate_withNamed (w := w) n items stands (isSpecial_of_builtin code) quotedItems
    quoteCode quoteStands named noLambda with refused | ⟨m₂, agrees', calledWith⟩
  · exact .refused (.inr refused)
  · obtain ⟨m₁, agrees, called⟩ := exists_evaluate_form (applyWithin w n) isCall named
    rw [called, applyTo_ordinary ordinary, calledWith]
    refine (endAlike_mapM uniform n n scope known).bind (fun σ le vs vs' values => ?_)
      m₁ m₂ (state.of_agrees agrees agrees')
    exact endAlike_funcall uniform n code (function.mono le) values n

theorem likeEnd_apply (resolvesApply : m.store.Resolves scope .apply)
    (resolvesList : m.store.Resolves scope .list) (settled : ρ.Settled) {viaApply : Expr}
    (isApply : viaApply.IsApplyList name args) :
    LikeEnd LikeMachine Like ρ (w.eval scope call m) (w.eval scope viaApply m) := by
  obtain ⟨quoted, list, items, quotedItems, listItems⟩ := isApply
  obtain ⟨apply, code, stands⟩ := resolvesApply
  obtain ⟨listFunction, listCode, listStands⟩ := resolvesList
  obtain ⟨quote, quoteCode, quoteStands⟩ := resolvesFunction
  rw [World.eval, World.eval]
  generalize w.maxDepth - m.depth = n
  rcases evaluate_withNamed (w := w) n items stands (isSpecial_of_builtin code) quotedItems
    quoteCode quoteStands named noLambda with refused | ⟨m₂, agrees', calledWith⟩
  · exact .refused (.inr refused)
  · obtain ⟨m₁, agrees, called⟩ := exists_evaluate_form (applyWithin w n) isCall named
    rw [← agrees'.store] at listStands
    obtain ⟨m₃, agrees'', listed⟩ :=
      exists_evaluate_form (applyWithin w n) listItems listStands
    rw [applyTo_ordinary (isSpecial_of_builtin listCode)] at listed
    have gathers : ([list].mapM (evaluate (applyWithin w n) scope) >>= fun vs =>
        applyWithin w n apply (.function g :: vs) scope) =
          evaluate (applyWithin w n) scope list >>= fun e =>
            applyWithin w n apply [.function g, e] scope := by
      simp only [List.mapM_cons, List.mapM_nil, bind_assoc, pure_bind]
    rw [called, applyTo_ordinary ordinary, calledWith, gathers, bind_of_eq listed, bind_assoc]
    exact endAlike_applyList uniform n n settled function known listCode code m₁ m₃
      (state.of_agrees agrees (agrees''.trans agrees'))

end Forms

/-- In every scope, a function that a symbol names does the same whether the symbol is called,
or the function is through `funcall` or, with the list of its arguments, through `apply`. -/
theorem World.eval_call_ways (w : World) (uniform : w.Uniform) (m : Machine) (sound : m.Sound)
    (scope : ScopeId) (resolves : ∀ op ∈ [.funcall, .apply, .list, .function],
      m.store.Resolves scope op)
    (name : String) (f : Function) (named : m.store.function? scope name = some (.function f))
    (ordinary : f.isSpecial = false) (noLambda : ∀ ps body, f.code ≠ .lambda ps body)
    (args : List Expr) (known : ∀ e ∈ args, m.Knows e) (call viaFuncall viaApply : Expr)
    (isCall : call.properItems? = some (.symbol name :: args))
    (isFuncall : viaFuncall.IsFuncall name args) (isApply : viaApply.IsApplyList name args)
    (answered : ¬ Overflowed (w.eval scope call m))
    (answered' : ¬ Overflowed (w.eval scope viaFuncall m))
    (answered'' : ¬ Overflowed (w.eval scope viaApply m)) :
    SameEnd (w.eval scope call m) (w.eval scope viaFuncall m) ∧
      SameUpToMade m.objects (w.eval scope call m) (w.eval scope viaApply m) := by
  have resolvesFunction := resolves .function (by simp)
  constructor
  · have itself := reflexive_same m.objects
    exact .of_likeEnd (likeEnd_funcall uniform (likeMachine_same (.refl m)) named ordinary noLambda
      (itself.like _) (itself.likeAll args) resolvesFunction isCall (resolves .funcall (by simp))
      isFuncall) answered answered'
  · have state := likeMachine_below sound
    have function : (below m.objects).LikeFunction f f := by
      have held := state.store.function? scope name
      rw [named] at held
      cases held with
      | some function => exact function
    have inputs : (below m.objects).LikeAll args args :=
      List.forall₂_same.mpr fun e mem => like_below (known e mem)
    exact .of_likeEnd (likeEnd_apply uniform state named ordinary noLambda function inputs
      resolvesFunction isCall (resolves .apply (by simp)) (resolves .list (by simp))
      (settled_below m.objects) isApply) answered answered''

/-- `(defun not (x) 7)`, whose value is its name. -/
def redefinition : Expr :=
  listFrom 0 [.symbol "defun", .symbol "not", listFrom 4 [.symbol "x"], .integer 7]

/-- `(not (defun not (x) 7))`. -/
def redefiningCall : Expr := listFrom 5 [.symbol "not", redefinition]

/-- `(funcall #'not (defun not (x) 7))`. -/
def redefiningFuncall : Expr :=
  listFrom 7 [.symbol "funcall", listFrom 10 [.symbol "function", .symbol "not"], redefinition]

/-- `(apply #'not (list (defun not (x) 7)))`. -/
def redefiningApply : Expr :=
  listFrom 12 [.symbol "apply", listFrom 15 [.symbol "function", .symbol "not"],
    listFrom 17 [.symbol "list", redefinition]]

/-- An argument that redefines the function comes too late in each way to call it. -/
theorem World.eval_call_ways_redefining :
    ¬ Overflowed (World.eval {} Store.root redefiningCall Machine.initial) ∧
      SameEnd (World.eval {} Store.root redefiningCall Machine.initial)
        (World.eval {} Store.root redefiningFuncall Machine.initial) ∧
      SameUpToMade Machine.initial.objects
        (World.eval {} Store.root redefiningCall Machine.initial)
        (World.eval {} Store.root redefiningApply Machine.initial) := by
  have answered : ¬ Overflowed (World.eval {} Store.root redefiningCall Machine.initial) :=
    not_overflowed_of_isOk (by decide +kernel)
  have answered' : ¬ Overflowed (World.eval {} Store.root redefiningFuncall Machine.initial) :=
    not_overflowed_of_isOk (by decide +kernel)
  have answered'' : ¬ Overflowed (World.eval {} Store.root redefiningApply Machine.initial) :=
    not_overflowed_of_isOk (by decide +kernel)
  have parameters : Machine.initial.Knows (listFrom 4 [.symbol "x"]) :=
    Machine.knows_listFrom (by decide) (List.forall_mem_singleton.mpr nofun)
  have known : Machine.initial.Knows redefinition := by
    refine Machine.knows_listFrom (by decide) ?_
    simp only [List.forall_mem_cons]
    exact ⟨nofun, nofun, parameters, nofun, nofun⟩
  obtain ⟨f, code, named⟩ := Store.resolves_withBuiltins .not
  exact ⟨answered, World.eval_call_ways {} (uniform_of_unregistered rfl) _ Machine.sound_initial _
    (fun op _ => Store.resolves_withBuiltins op) "not" f named (isSpecial_of_builtin code)
    (by rw [code]; nofun) [redefinition] (List.forall_mem_singleton.mpr known) _ _ _ rfl
    ⟨_, rfl, rfl⟩ ⟨_, _, rfl, rfl, rfl⟩ answered answered' answered''⟩

end Lisp
