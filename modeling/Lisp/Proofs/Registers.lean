import Lisp.Proofs.Returning

/-!
# Closures as private registers

A function that returns a getter and a setter of its parameter makes a register with
every call. A getter returns what was last given to the setter of its own pair, or
the initial value of the pair if nothing was. This holds of any number of pairs and
of every sequence of calls to them, directly or through `funcall` and `apply`, from
any scope, whatever that scope binds. In between, scopes may be opened, variables of
other scopes assigned, and names defined globally as variables and constants, `x` and
`y` among them.

Each pair has a scope of its own, which holds the variable and is not the root. A
getter finds the variable in the scope below which its call opens a new one, and a
setter assigns to it there.
-/

namespace Lisp

/-- Whether an expression is what a datum was read as, whatever identities its pairs
have been given. -/
def Datum.Spells (d : Datum) (e : Expr) : Prop := ∃ n, e = (d.place n).1

theorem Datum.Spells.symbol {name : String} {e : Expr} (h : Datum.Spells (.symbol name) e) :
    e = .symbol name := by
  obtain ⟨n, rfl⟩ := h
  rfl

theorem Datum.Spells.list {ds : List Datum} {e : Expr} (h : Datum.Spells (.list ds) e) :
    ∃ es, e.properItems? = some es ∧ List.Forall₂ Datum.Spells ds es := by
  obtain ⟨n, rfl⟩ := h
  induction ds generalizing n with
  | nil => exact ⟨[], rfl, .nil⟩
  | cons d ds ih =>
    obtain ⟨es, items, spelled⟩ := ih (d.place (n + 1)).2
    refine ⟨(d.place (n + 1)).1 :: es, ?_, .cons ⟨n + 1, rfl⟩ spelled⟩
    have whole : ((Datum.list (d :: ds)).place n).1 =
        .pair ⟨n⟩ none (d.place (n + 1)).1 ((Datum.list ds).place (d.place (n + 1)).2).1 := rfl
    rw [whole, Sexp.properItems?_pair, items]
    rfl

namespace Register

/-- `(setq x y)` -/
def setting : Datum := .list [.symbol "setq", .symbol "x", .symbol "y"]

/-- `(lambda () x)` -/
def reading : Datum := .list [.symbol "lambda", .list [], .symbol "x"]

/-- `(lambda (y) (setq x y))` -/
def writing : Datum := .list [.symbol "lambda", .list [.symbol "y"], setting]

/-- A list of closures over the variable. -/
def pairing : Datum :=
  .list [.symbol "list", .list [.symbol "function", reading], .list [.symbol "function", writing]]

def twoFuns : Datum := .list [.symbol "defun", .symbol "two-funs", .list [.symbol "x"], pairing]

example : Datum.ofText? "(defun two-funs (x) (list (function (lambda () x))
    (function (lambda (y) (setq x y)))))" = .ok twoFuns := by cbv

/-- The builtins whose names occur in the function. -/
def used : List Builtin := [.list, .function, .lambda, .setq]

/-- A function that returns the variable of a scope. -/
def IsGetter (f : Function) (scope : ScopeId) : Prop := f.code = .closure [] [.symbol "x"] scope

/-- A function that assigns its argument to the variable of a scope. -/
def IsSetter (f : Function) (scope : ScopeId) : Prop :=
  ∃ e, setting.Spells e ∧ f.code = .closure ["y"] [e] scope

/-- A function that makes a pair. -/
def IsMaker (f : Function) : Prop :=
  ∃ e, pairing.Spells e ∧ f.code = .named "two-funs" ["x"] [e]

/-- The getter and the setter that one call has returned. -/
@[ext]
structure Pair where
  getter : Function
  setter : Function

/-- The variable of a pair is that of a scope. -/
def Pair.Over (p : Pair) (scope : ScopeId) : Prop :=
  IsGetter p.getter scope ∧ IsSetter p.setter scope

section Calls

variable {w : World} {s : Store} {n : Nat} {f : Function} {scope captured : ScopeId}

/-- A getter returns the variable and opens an empty scope. -/
theorem returns_getter (getter : IsGetter f captured) (coherent : s.Coherent)
    (has : s.Has captured) {held : Expr} (holds : s.localValue? "x" captured = some held) :
    Returns (applyWithin w (n + 1) f [] scope) s fun v s' =>
      v = held ∧ s' = (s.enter captured []).2 := by
  have found : (s.enter captured []).2.value? s.fresh "x" = some held := by
    rw [coherent.value?_enter has, Store.value?_of_localValue? holds]
    rfl
  exact returns_closure getter rfl (returns_evalIn (returns_symbol found ⟨rfl, rfl⟩))

/-- A setter returns its argument, having opened a scope for it and assigned it to the
variable. -/
theorem returns_setter (setter : IsSetter f captured) (coherent : s.Coherent)
    (has : s.Has captured) (ne : captured ≠ Store.root) {held : Expr}
    (holds : s.localValue? "x" captured = some held) (names : ∀ op ∈ used, s.Names op) (v : Expr) :
    Returns (applyWithin w (n + 2) f [v] scope) s fun result s' =>
      result = v ∧
        s' = (s.enter captured [("y", v)]).2.change captured "x" (Binding.withValue v) := by
  obtain ⟨e, spelled, code⟩ := setter
  obtain ⟨es, form, _ | ⟨setq, _ | ⟨x, _ | ⟨y, _ | _⟩⟩⟩⟩ := spelled.list
  cases setq.symbol
  cases x.symbol
  cases y.symbol
  have inner := (coherent.enter has [("y", v)]).1
  have there : (s.enter captured [("y", v)]).2.Has s.fresh := (Store.has_enter _ _ _).mpr (.inr rfl)
  have given : (s.enter captured [("y", v)]).2.value? s.fresh "y" = some v := by
    rw [coherent.value?_enter has]
    rfl
  have argument : Returns (evaluate (applyWithin w n) s.fresh (.symbol "y"))
      (s.enter captured [("y", v)]).2 fun a s' => a = v ∧ s' = (s.enter captured [("y", v)]).2 :=
    returns_symbol given ⟨rfl, rfl⟩
  -- The new scope binds `y` only, so the assignment goes on to the captured scope.
  have target : (s.enter captured [("y", v)]).2.assignee s.fresh "x" = captured :=
    Store.assignee_enter has rfl (by rw [holds]; rfl)
  refine returns_closure code rfl (returns_evalIn ?_)
  have setq := (names .setq (by decide)).enter coherent has [("y", v)]
  refine returns_builtinForm inner there setq rfl form rfl ?_
  refine returns_eval argument ?_
  rintro a s' ⟨rfl, rfl⟩
  refine returns_assign ?_ (.pure ⟨rfl, ?_⟩)
  · rw [target]
    exact inner.isLocked_eq_false ne "x"
  · rw [target]

/-- The first closure of a pair. -/
theorem returns_reading {e : Expr}
    (spelled : (Datum.list [.symbol "function", reading]).Spells e) (coherent : s.Coherent)
    (has : s.Has scope) (names : ∀ op ∈ used, s.Names op) :
    Returns (evaluate (applyWithin w (n + 2)) scope e) s fun v s' =>
      s' = s ∧ ∃ f, v = .function f ∧ IsGetter f scope := by
  obtain ⟨es, form, _ | ⟨function, _ | ⟨abs, _ | _⟩⟩⟩ := spelled.list
  obtain ⟨as, abstraction, _ | ⟨lambda, _ | ⟨list, _ | ⟨x, _ | _⟩⟩⟩⟩ := abs.list
  obtain ⟨ps, parameters, _ | _⟩ := list.list
  cases function.symbol
  cases lambda.symbol
  cases x.symbol
  exact returns_functionOf [] coherent has (names .function (by decide))
    (names .lambda (by decide)) form abstraction parameters fun id => ⟨rfl, _, rfl, rfl⟩

/-- The second closure of a pair. -/
theorem returns_writing {e : Expr}
    (spelled : (Datum.list [.symbol "function", writing]).Spells e) (coherent : s.Coherent)
    (has : s.Has scope) (names : ∀ op ∈ used, s.Names op) :
    Returns (evaluate (applyWithin w (n + 2)) scope e) s fun v s' =>
      s' = s ∧ ∃ f, v = .function f ∧ IsSetter f scope := by
  obtain ⟨es, form, _ | ⟨function, _ | ⟨abs, _ | _⟩⟩⟩ := spelled.list
  obtain ⟨as, abstraction, _ | ⟨lambda, _ | ⟨list, _ | ⟨body, _ | _⟩⟩⟩⟩ := abs.list
  obtain ⟨ps, parameters, _ | ⟨y, _ | _⟩⟩ := list.list
  cases function.symbol
  cases lambda.symbol
  cases y.symbol
  exact returns_functionOf ["y"] coherent has (names .function (by decide))
    (names .lambda (by decide)) form abstraction parameters fun id => ⟨rfl, _, rfl, _, body, rfl⟩

/-- The closures of a pair, one after the other. -/
theorem returns_closures {first second : Expr}
    (getter : (Datum.list [.symbol "function", reading]).Spells first)
    (setter : (Datum.list [.symbol "function", writing]).Spells second) (coherent : s.Coherent)
    (has : s.Has scope) (names : ∀ op ∈ used, s.Names op) :
    Returns ([first, second].mapM (evaluate (applyWithin w (n + 2)) scope)) s fun values s' =>
      s' = s ∧ ∃ p : Pair, values = [.function p.getter, .function p.setter] ∧ p.Over scope := by
  have last : Returns ([second].mapM (evaluate (applyWithin w (n + 2)) scope)) s fun values s' =>
      s' = s ∧ ∃ f, values = [.function f] ∧ IsSetter f scope := by
    rw [List.mapM_cons]
    refine (returns_writing setter coherent has names).bind ?_
    rintro _ _ ⟨rfl, f, rfl, sets⟩
    exact .pure ⟨rfl, f, rfl, sets⟩
  rw [List.mapM_cons]
  refine (returns_reading getter coherent has names).bind ?_
  rintro _ _ ⟨rfl, f, rfl, gets⟩
  refine last.bind ?_
  rintro _ _ ⟨rfl, g, rfl, sets⟩
  exact .pure ⟨rfl, ⟨f, g⟩, rfl, gets, sets⟩

/-- A call of the function opens a scope for its argument and returns a pair over
it. -/
theorem returns_maker (maker : IsMaker f) (coherent : s.Coherent) (has : s.Has scope)
    (names : ∀ op ∈ used, s.Names op) (v : Expr) :
    Returns (applyWithin w (n + 3) f [v] scope) s fun result s' =>
      s' = (s.enter scope [("x", v)]).2 ∧
        ∃ p : Pair, result.properItems? = some [.function p.getter, .function p.setter] ∧
          p.Over s.fresh := by
  obtain ⟨e, spelled, code⟩ := maker
  obtain ⟨es, form, _ | ⟨list, _ | ⟨first, _ | ⟨second, _ | _⟩⟩⟩⟩ := spelled.list
  cases list.symbol
  have inner := (coherent.enter has [("x", v)]).1
  have there : (s.enter scope [("x", v)]).2.Has s.fresh := (Store.has_enter _ _ _).mpr (.inr rfl)
  have still : ∀ op ∈ used, (s.enter scope [("x", v)]).2.Names op := fun op mem =>
    (names op mem).enter coherent has _
  obtain ⟨makeList, listCode, found⟩ := (still .list (by decide)).function? inner there
  refine returns_named code rfl (returns_evalIn ?_)
  refine returns_ordinaryCall form found (isSpecial_of_builtin listCode)
    (returns_closures first second inner there still) ?_
  rintro _ _ ⟨rfl, p, rfl, captures⟩
  exact returns_builtin listCode rfl (returns_list _ fun e items => ⟨rfl, p, items, captures⟩)

/-- The definition makes the name stand for such a function. -/
theorem returns_twoFuns {e : Expr} (spelled : twoFuns.Spells e) (coherent : s.Coherent)
    (has : s.Has scope) (defun : s.Names .defun)
    (free : s.isLocked Store.root "two-funs" = false) :
    Returns (evaluate (applyWithin w (n + 1)) scope e) s fun _ s' =>
      ∃ f, IsMaker f ∧
        s' = s.change Store.root "two-funs" (Binding.withFunction (.function f)) := by
  obtain ⟨es, form, _ | ⟨head, _ | ⟨name, _ | ⟨list, _ | ⟨body, _ | _⟩⟩⟩⟩⟩ := spelled.list
  obtain ⟨ps, parameters, _ | ⟨x, _ | _⟩⟩ := list.list
  cases head.symbol
  cases name.symbol
  cases x.symbol
  refine returns_builtinForm coherent has defun rfl form rfl ?_
  dsimp only
  rw [parameters_symbols _ ["x"] parameters]
  refine returns_newFunction fun id => ?_
  exact returns_defineFunction free (.pure ⟨_, ⟨_, body, rfl⟩, rfl⟩)

end Calls

end Register

end Lisp
