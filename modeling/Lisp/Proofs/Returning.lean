import Lisp.Proofs.Lookup

/-!
# Computations that return

That an evaluation returns, with which value, and what it leaves in the store, is
proved part by part: of a symbol, of a call of a special form or of an ordinary
function, of each request of a program. Nothing here is assumed to return; what may
be nested still is a number that every call takes one from.

The counters, the call trace and the identities of new objects are left open.
-/

namespace Lisp

variable {α β : Type} {w : World} {apply : Applier} {s : Store}

/-- On every machine with a given store the computation returns, and something holds
of its value and of the store that it leaves. -/
def Returns (run : Run α) (s : Store) (post : α → Store → Prop) : Prop :=
  ∀ m, m.store = s → ∃ a m', run m = .ok a m' ∧ post a m'.store

namespace Returns

variable {post : α → Store → Prop}

theorem pure {a : α} (holds : post a s) : Returns (pure a) s post :=
  fun m same => ⟨a, m, rfl, by rwa [same]⟩

theorem imp {post' : α → Store → Prop} {run : Run α} (h : Returns run s post)
    (weaker : ∀ a s', post a s' → post' a s') : Returns run s post' := by
  intro m same
  obtain ⟨a, m', returned, holds⟩ := h m same
  exact ⟨a, m', returned, weaker a m'.store holds⟩

theorem bind {run : Run α} {next : α → Run β} {post' : β → Store → Prop}
    (first : Returns run s post) (later : ∀ a s', post a s' → Returns (next a) s' post') :
    Returns (run >>= next) s post' := by
  intro m same
  obtain ⟨a, m', returned, holds⟩ := first m same
  obtain ⟨b, m'', returned', holds'⟩ := later a m'.store holds m' rfl
  exact ⟨b, m'', (bind_of_ok returned).trans returned', holds'⟩

/-- What only counts beforehand returns as well. -/
theorem after {run run' : Run α} {f : Machine → Machine} (h : Returns run s post)
    (counts : ∀ m, (f m).store = m.store) (same : ∀ m, m.store = s → run' m = run (f m)) :
    Returns run' s post := by
  intro m here
  rw [same m here]
  exact h (f m) ((counts m).trans here)

/-- The beginning and the end of a call leave the store alone. -/
theorem framed {run : Run Expr} {post : Expr → Store → Prop} (h : Returns run s post)
    (name : String) (args : List Expr) : Returns (framed name args run) s post := by
  intro m same
  have entered : (m.enterCall name args).store = s := (store_enterCall m name args).trans same
  obtain ⟨v, m', returned, holds⟩ := h (m.enterCall name args) entered
  refine ⟨v, m'.leaveCall m.tracing m.depth (.ok v), ?_, by rwa [store_leaveCall]⟩
  simp only [Lisp.framed, returned]

end Returns

section Evaluation

variable {scope : ScopeId} {name : String} {post : Expr → Store → Prop}

theorem returns_symbol {v : Expr} (found : s.value? scope name = some v) (holds : post v s) :
    Returns (evaluate apply scope (.symbol name)) s post := by
  refine (Returns.pure holds).after (f := fun m => m.countEvaluation.countLookup) (fun _ => rfl) ?_
  intro m here
  have there : m.countEvaluation.countLookup.store.value? scope name = some v := by
    rw [← found, ← here]
    rfl
  rw [evaluate, modify_bind, modify_bind, get_bind, there]

/-- The arguments of a call are evaluated one after the other. -/
theorem evaluateItems_eq_mapM {args : Expr} {es : List Expr} (items : args.properItems? = some es) :
    evaluateItems apply scope args = es.mapM (evaluate apply scope) := by
  induction args generalizing es with
  | pair id mark e rest _ ih =>
    rw [Sexp.properItems?_pair, Option.map_eq_some_iff] at items
    obtain ⟨tail, tailItems, rfl⟩ := items
    rw [evaluateItems, List.mapM_cons, ih tailItems]
  | nil =>
    cases items
    rfl
  | bool b =>
    have none : es = [] := by cases b <;> simp_all [Sexp.properItems?, Sexp.isNil]
    rw [none]
    rfl
  | _ => simp [Sexp.properItems?, Sexp.isNil] at items

/-- A list of a name and arguments is a call of the function of the name. -/
theorem evaluate_call {e : Expr} {es : List Expr} {f : Function} {m : Machine}
    (form : e.properItems? = some (.symbol name :: es))
    (found : m.store.function? scope name = some (.function f)) :
    evaluate apply scope e m =
      ((if f.isSpecial then Pure.pure es else es.mapM (evaluate apply scope)) >>= fun values =>
        apply f values scope) m.countEvaluation.countLookup := by
  cases e with
  | pair id mark head args =>
    rw [Sexp.properItems?_pair, Option.map_eq_some_iff] at form
    obtain ⟨items, argsItems, same⟩ := form
    obtain ⟨rfl, rfl⟩ := List.cons.inj same
    have named : callee scope (.symbol name) (evaluate apply scope (.symbol name))
        m.countEvaluation = .ok f m.countEvaluation.countLookup := by
      have there : m.countEvaluation.store.function? scope name = some (.function f) := found
      rw [callee, functionNamed_eq, there]
    rw [evaluate_pair, bind_of_ok named, callWith, argsItems, evaluateItems_eq_mapM argsItems]
    cases f.isSpecial <;> rfl
  | nil => cases form
  | bool b => cases b <;> cases form
  | _ => cases form

theorem returns_specialForm {e : Expr} {es : List Expr} {f : Function}
    (form : e.properItems? = some (.symbol name :: es))
    (found : s.function? scope name = some (.function f)) (special : f.isSpecial = true)
    (applied : Returns (apply f es scope) s post) : Returns (evaluate apply scope e) s post := by
  refine applied.after (f := fun m => m.countEvaluation.countLookup) (fun _ => rfl) fun m here => ?_
  rw [evaluate_call form (here ▸ found), special]
  rfl

theorem returns_ordinaryCall {e : Expr} {es : List Expr} {f : Function}
    {mid : List Expr → Store → Prop} (form : e.properItems? = some (.symbol name :: es))
    (found : s.function? scope name = some (.function f)) (ordinary : f.isSpecial = false)
    (arguments : Returns (es.mapM (evaluate apply scope)) s mid)
    (applied : ∀ values s', mid values s' → Returns (apply f values scope) s' post) :
    Returns (evaluate apply scope e) s post := by
  refine (arguments.bind applied).after (f := fun m => m.countEvaluation.countLookup)
    (fun _ => rfl) fun m here => ?_
  rw [evaluate_call form (here ▸ found), ordinary]
  rfl

end Evaluation

section Requests

variable {post : α → Store → Prop}

theorem returns_newFunction {code : Code Expr} {next : Function → Program α}
    (later : ∀ id, Returns ((next (.object id code)).run w apply) s post) :
    Returns ((Program.perform (.newFunction code) next).run w apply) s post :=
  fun m same => later ⟨m.objects⟩ { m with objects := m.objects + 1 } same

theorem returns_cons {car cdr : Expr} {next : Expr → Program α}
    (later : ∀ id, Returns ((next (.pair id none car cdr)).run w apply) s post) :
    Returns ((Program.perform (.cons car cdr) next).run w apply) s post :=
  fun m same => later ⟨m.objects⟩ { m with objects := m.objects + 1 } same

theorem returns_enter {parent : ScopeId} {values : List (String × Expr)}
    {next : ScopeId → Program α}
    (later : Returns ((next s.fresh).run w apply) (s.enter parent values).2 post) :
    Returns ((Program.perform (.enter parent values) next).run w apply) s post := by
  rintro m rfl
  exact later { m with store := (m.store.enter parent values).2 } rfl

theorem update_of_free {m : Machine} {id : ScopeId} {name : String} (f : Binding → Binding)
    (free : m.store.isLocked id name = false) :
    Machine.update id name f m = .ok () { m with store := m.store.change id name f } := by
  simp [Machine.update, free]

theorem returns_assign {scope : ScopeId} {name : String} {v : Expr} {next : Unit → Program α}
    (free : s.isLocked (s.assignee scope name) name = false)
    (later : Returns ((next ()).run w apply)
      (s.change (s.assignee scope name) name (Binding.withValue v)) post) :
    Returns ((Program.perform (.assign scope name v) next).run w apply) s post := by
  rintro m rfl
  obtain ⟨a, m', returned, holds⟩ := later { m with store := m.store.change _ name _ } rfl
  exact ⟨a, m', (bind_of_ok (update_of_free _ free)).trans returned, holds⟩

theorem returns_defineFunction {name : String} {f : Expr} {next : Unit → Program α}
    (free : s.isLocked Store.root name = false)
    (later : Returns ((next ()).run w apply)
      (s.change Store.root name (Binding.withFunction f)) post) :
    Returns ((Program.perform (.defineFunction name f) next).run w apply) s post := by
  rintro m rfl
  obtain ⟨a, m', returned, holds⟩ := later { m with store := m.store.change _ name _ } rfl
  exact ⟨a, m', (bind_of_ok (update_of_free _ free)).trans returned, holds⟩

theorem returns_eval {scope : ScopeId} {e : Expr} {next : Expr → Program α}
    {mid : Expr → Store → Prop} (evaluated : Returns (evaluate apply scope e) s mid)
    (later : ∀ v s', mid v s' → Returns ((next v).run w apply) s' post) :
    Returns ((Program.eval scope e next).run w apply) s post := evaluated.bind later

/-- An expression at the end of a program. -/
theorem returns_evalIn {scope : ScopeId} {e : Expr} {post : Expr → Store → Prop}
    (evaluated : Returns (evaluate apply scope e) s post) :
    Returns ((Program.evalIn scope e).run w apply) s post :=
  returns_eval evaluated fun _ _ holds => .pure holds

/-- A call at the end of a program. -/
theorem returns_call {f : Function} {args : List Expr} {scope : ScopeId}
    {post : Expr → Store → Prop} (applied : Returns (apply f args scope) s post) :
    Returns ((Program.call f args scope .done).run w apply) s post :=
  applied.bind fun _ _ holds => .pure holds

theorem returns_consAll {rest : Expr} {tail : List Expr} (ends : rest.properItems? = some tail)
    (items : List Expr) {post : Expr → Store → Prop}
    (holds : ∀ e : Expr, e.properItems? = some (items.reverse ++ tail) → post e s) :
    Returns ((Program.consAll rest items).run w apply) s post := by
  induction items generalizing rest tail with
  | nil => exact .pure (holds rest ends)
  | cons item items ih =>
    refine returns_cons fun id => ?_
    have longer : (Sexp.pair id none item rest : Expr).properItems? = some (item :: tail) := by
      rw [Sexp.properItems?_pair, ends]
      rfl
    exact ih longer fun e same => holds e (by simpa using same)

/-- A new list has the given elements. -/
theorem returns_list (items : List Expr) {post : Expr → Store → Prop}
    (holds : ∀ e : Expr, e.properItems? = some items → post e s) :
    Returns ((Program.list items).run w apply) s post :=
  returns_consAll Sexp.properItems?_nil items.reverse fun e same => holds e (by simpa using same)

end Requests

section Calls

variable {n : Nat} {f : Function} {args : List Expr} {scope : ScopeId}
  {post : Expr → Store → Prop}

/-- A call returns if its program does with one call fewer. -/
theorem returns_applyWithin
    (body : Returns ((f.program w args scope).run w (applyWithin w n)) s post) :
    Returns (applyWithin w (n + 1) f args scope) s post := body.framed f.name args

/-- A builtin does what its body does with the arguments. -/
theorem Function.program_builtin {op : Builtin} {p : Program Expr} (code : f.code = .builtin op)
    (supplied : op.body.supply ⟨op.name, scope⟩ args = .ok p) : f.program w args scope = p := by
  simp only [Function.program, code, supplied]

theorem returns_builtin {op : Builtin} {p : Program Expr} (code : f.code = .builtin op)
    (supplied : op.body.supply ⟨op.name, scope⟩ args = .ok p)
    (body : Returns (p.run w (applyWithin w n)) s post) :
    Returns (applyWithin w (n + 1) f args scope) s post :=
  returns_applyWithin (by rwa [Function.program_builtin code supplied])

/-- The body of a function of the program is evaluated in a new scope. -/
theorem returns_body {name : String} {parameters : List String} {body : List Expr}
    {outer : ScopeId} (count : args.length = parameters.length)
    (evaluated : Returns ((Program.evalBody s.fresh body).run w apply)
      (s.enter outer (parameters.zip args)).2 post) :
    Returns ((Function.bodyProgram name parameters body args outer).run w apply) s post := by
  have fits : (Arity.exact parameters.length).fault? args.length = none := by
    rw [Arity.fault?_eq_none_iff, count]
    exact ⟨le_rfl, fun most same => (Option.some.inj same).le⟩
  rw [Function.bodyProgram, fits]
  exact returns_enter evaluated

theorem returns_closure {parameters : List String} {body : List Expr} {captured : ScopeId}
    (code : f.code = .closure parameters body captured) (count : args.length = parameters.length)
    (evaluated : Returns ((Program.evalBody s.fresh body).run w (applyWithin w n))
      (s.enter captured (parameters.zip args)).2 post) :
    Returns (applyWithin w (n + 1) f args scope) s post := by
  have does : f.program w args scope =
      Function.bodyProgram f.name parameters body args captured := by
    simp only [Function.program, code]
  exact returns_applyWithin (by rw [does]; exact returns_body count evaluated)

theorem returns_named {name : String} {parameters : List String} {body : List Expr}
    (code : f.code = .named name parameters body) (count : args.length = parameters.length)
    (evaluated : Returns ((Program.evalBody s.fresh body).run w (applyWithin w n))
      (s.enter scope (parameters.zip args)).2 post) :
    Returns (applyWithin w (n + 1) f args scope) s post := by
  have does : f.program w args scope =
      Function.bodyProgram name parameters body args scope := by
    simp only [Function.program, code]
  exact returns_applyWithin (by rw [does]; exact returns_body count evaluated)

theorem isSpecial_of_builtin {op : Builtin} (code : f.code = .builtin op) :
    f.isSpecial = op.isSpecial := by
  rw [Function.isSpecial, code]
  rfl

end Calls

section Forms

variable {n : Nat} {scope : ScopeId} {post : Expr → Store → Prop}

/-- A call of a builtin special form by its name. -/
theorem returns_builtinForm {e : Expr} {op : Builtin} {es : List Expr} {p : Program Expr}
    (coherent : s.Coherent) (has : s.Has scope) (names : s.Names op) (special : op.isSpecial = true)
    (form : e.properItems? = some (.symbol op.name :: es))
    (supplied : op.body.supply ⟨op.name, scope⟩ es = .ok p)
    (body : Returns (p.run w (applyWithin w n)) s post) :
    Returns (evaluate (applyWithin w (n + 1)) scope e) s post := by
  obtain ⟨f, code, found⟩ := names.function? coherent has
  exact returns_specialForm form found ((isSpecial_of_builtin code).trans special)
    (returns_builtin code supplied body)

theorem parameterNames_symbols (site : Site) (names : List String) :
    Library.parameterNames site (names.map .symbol) = .ok names := by
  induction names with
  | nil => rfl
  | cons name names ih =>
    rw [List.map_cons, Library.parameterNames, ih]
    rfl

theorem parameters_symbols (site : Site) {e : Expr} (names : List String)
    (list : e.properItems? = some (names.map .symbol)) :
    Library.parameters site e = .ok names := by
  rw [Library.parameters, list]
  exact parameterNames_symbols site names

theorem returns_abstraction {e list : Expr} {names : List String} {body : List Expr}
    (coherent : s.Coherent) (has : s.Has scope) (lambda : s.Names .lambda)
    (form : e.properItems? = some (.symbol "lambda" :: list :: body))
    (parameters : list.properItems? = some (names.map .symbol))
    (holds : ∀ id, post (.function (.object id (.lambda names body))) s) :
    Returns (evaluate (applyWithin w (n + 1)) scope e) s post := by
  refine returns_builtinForm coherent has lambda rfl form rfl ?_
  dsimp only
  rw [parameters_symbols _ names parameters]
  exact returns_newFunction fun id => .pure (holds id)

/-- `function` makes a closure of an abstraction. -/
theorem returns_functionOf {e abs list : Expr} (names : List String) {body : List Expr}
    (coherent : s.Coherent) (has : s.Has scope) (function : s.Names .function)
    (lambda : s.Names .lambda) (form : e.properItems? = some [.symbol "function", abs])
    (abstraction : abs.properItems? = some (.symbol "lambda" :: list :: body))
    (parameters : list.properItems? = some (names.map .symbol))
    (holds : ∀ id, post (.function (.object id (.closure names body scope))) s) :
    Returns (evaluate (applyWithin w (n + 2)) scope e) s post := by
  have isPair : abs.isPair = true := by
    cases abs with
    | pair => rfl
    | bool b => cases b <;> cases abstraction
    | _ => cases abstraction
  refine returns_builtinForm coherent has function rfl form rfl ?_
  dsimp only
  rw [if_pos isPair]
  have target : Returns (evaluate (applyWithin w (n + 1)) scope abs) s fun v s' =>
      s' = s ∧ ∃ id, v = .function (.object id (.lambda names body)) :=
    returns_abstraction coherent has lambda abstraction parameters fun id => ⟨rfl, id, rfl⟩
  refine returns_eval target ?_
  rintro v s' ⟨rfl, id, rfl⟩
  exact returns_newFunction fun id => .pure (holds id)

end Forms

end Lisp
