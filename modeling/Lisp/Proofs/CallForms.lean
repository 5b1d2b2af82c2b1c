import Lisp.Proofs.Identities
import Lisp.Proofs.Lookup

/-!
# What a call form comes to

A call resolves its head, evaluates the arguments unless a special form is called, and
applies the function. Called as a special form, a builtin comes to what its body does with
the forms that it is given; nothing else is seen of the call.
-/

namespace Lisp

open Likeness

variable {apply : Applier} {w : World} {n : Nat} {scope : ScopeId} {e head : Expr} {es : List Expr}
  {f : Function} {op : Builtin} {p : Program Expr} {m : Machine}

theorem exists_pair_of_properItems? (form : e.properItems? = some (head :: es)) :
    ∃ id mark tail, e = .pair id mark head tail ∧ tail.properItems? = some es := by
  cases e with
  | pair id mark car cdr =>
    rw [Sexp.properItems?_pair, Option.map_eq_some_iff] at form
    obtain ⟨items, rest, same⟩ := form
    obtain ⟨rfl, rfl⟩ := List.cons.inj same
    exact ⟨id, mark, cdr, rfl, rest⟩
  | bool b => cases b <;> cases form
  | _ => cases form

/-- A list whose pairs are numbered from a number on. -/
def listFrom (n : Nat) : List Expr → Expr
  | [] => .nil
  | e :: es => .pair ⟨n⟩ none e (listFrom (n + 1) es)

@[simp] theorem properItems?_listFrom (n : Nat) (es : List Expr) :
    (listFrom n es).properItems? = some es := by
  induction es generalizing n with
  | nil => rfl
  | cons e es ih =>
    rw [listFrom, Sexp.properItems?_pair, ih]
    rfl

/-- A list of known expressions is known if its own pairs are. -/
theorem Machine.knows_listFrom {m : Machine} {n : Nat} {es : List Expr}
    (made : n + es.length ≤ m.objects) (known : ∀ e ∈ es, m.Knows e) :
    m.Knows (listFrom n es) := by
  induction es generalizing n with
  | nil =>
    intro i there
    cases there
  | cons e es ih =>
    obtain ⟨first, rest⟩ := List.forall_mem_cons.mp known
    rw [List.length_cons] at made
    intro i there
    cases there with
    | pair =>
      dsimp only
      omega
    | car there => exact first i there
    | cdr there => exact ih (by omega) rest i there

theorem not_overflowed_of_isOk {α : Type} {r : EStateM.Result Error Machine α}
    (ended : (outcome r).isOk = true) : ¬ Overflowed r := by
  cases r with
  | ok a m => exact id
  | error e m => cases ended

/-- Programs that are put together run one after the other. -/
theorem Program.run_andThen {α β : Type} (w : World) (apply : Applier) (p : Program α)
    (f : α → Program β) :
    (p >>= f).run w apply = p.run w apply >>= fun a => (f a).run w apply :=
  Program.run_bind w apply p f

/-- What follows a computation follows every other that ends in the same way. -/
theorem bind_of_eq {α β : Type} {run run' : Run α} {next : α → Run β} {m m' : Machine}
    (h : run m = run' m') : (run >>= next) m = (run' >>= next) m' := by
  cases result : run' m' with
  | ok a m₁ => rw [bind_of_ok (h.trans result), bind_of_ok result]
  | error e m₁ => rw [bind_of_error (h.trans result), bind_of_error result]

/-- Applies a function to the arguments of a call, which are evaluated unless the function is
a special form. -/
def applyTo (apply : Applier) (scope : ScopeId) (es : List Expr) (f : Function) : Run Expr := do
  let values ← if f.isSpecial then pure es else es.mapM (evaluate apply scope)
  apply f values scope

theorem evaluate_form (form : e.properItems? = some (head :: es)) (m : Machine) :
    evaluate apply scope e m =
      (callee scope head (evaluate apply scope head) >>= applyTo apply scope es)
        m.countEvaluation := by
  obtain ⟨id, mark, args, rfl, items⟩ := exists_pair_of_properItems? form
  have called : callWith apply scope (.pair id mark head args) args = applyTo apply scope es := by
    funext f
    rw [callWith, items, applyTo, evaluateItems_eq_mapM items]
  rw [evaluate_pair, called]

/-- The function that a head stands for where it need not be evaluated: a function, or a
symbol that names one. -/
def HeadIs (s : Store) (scope : ScopeId) (f : Function) : Expr → Prop
  | .symbol name => s.function? scope name = some (.function f)
  | .function g => g = f
  | _ => False

/-- Whether the name of a builtin stands for it in a scope. -/
def Store.Resolves (s : Store) (scope : ScopeId) (op : Builtin) : Prop :=
  ∃ f, f.code = .builtin op ∧ HeadIs s scope f (.symbol op.name)

theorem Store.resolves_withBuiltins (op : Builtin) : withBuiltins.Resolves root op :=
  (names_withBuiltins op).function? isLibrary_withBuiltins.coherent
    isLibrary_withBuiltins.coherent.has_root

/-- A call with such a head applies the function, on a machine that has counted more. -/
theorem exists_evaluate_form (apply : Applier) (form : e.properItems? = some (head :: es))
    (stands : HeadIs m.store scope f head) :
    ∃ m₁ : Machine, m₁.Agrees m ∧ evaluate apply scope e m = applyTo apply scope es f m₁ := by
  rw [evaluate_form form]
  cases head with
  | symbol name =>
    have there : m.countEvaluation.store.function? scope name = some (.function f) := stands
    have named : callee scope (.symbol name) (evaluate apply scope (.symbol name))
        m.countEvaluation = .ok f m.countEvaluation.countLookup := by
      rw [callee, functionNamed_eq, there]
    rw [bind_of_ok named]
    exact ⟨m.countEvaluation.countLookup, ⟨rfl, rfl, rfl, rfl⟩, rfl⟩
  | function g =>
    obtain rfl := stands
    exact ⟨m.countEvaluation, ⟨rfl, rfl, rfl, rfl⟩, rfl⟩
  | _ => exact stands.elim

theorem applyTo_special (special : f.isSpecial = true) :
    applyTo apply scope es f = apply f es scope := by
  rw [applyTo, special]
  rfl

theorem applyTo_ordinary (ordinary : f.isSpecial = false) :
    applyTo apply scope es f =
      es.mapM (evaluate apply scope) >>= fun values => apply f values scope := by
  rw [applyTo, ordinary]
  rfl

theorem applyTo_cons {v : Expr} {m' : Machine} (ordinary : f.isSpecial = false)
    (first : evaluate apply scope e m = .ok v m') :
    applyTo apply scope (e :: es) f m =
      (es.mapM (evaluate apply scope) >>= fun values => apply f (v :: values) scope) m' := by
  rw [applyTo_ordinary ordinary, List.mapM_cons, bind_assoc, bind_of_ok first, bind_assoc]
  simp only [pure_bind]

theorem overflowed_applyTo_cons (ordinary : f.isSpecial = false)
    (first : Overflowed (evaluate apply scope e m)) :
    Overflowed (applyTo apply scope (e :: es) f m) := by
  rw [applyTo_ordinary ordinary, List.mapM_cons]
  exact LikeRun.overflowed_bind (LikeRun.overflowed_bind first)

/-- With as many arguments as parameters the body is evaluated in a new scope. -/
theorem bodyProgram_eq {parameters : List String} {args : List Expr}
    (fits : args.length = parameters.length) (name : String) (body : List Expr) (outer : ScopeId) :
    Function.bodyProgram name parameters body args outer =
      Program.enter outer (parameters.zip args) >>= fun inner => Program.evalBody inner body := by
  have exact : (Arity.exact parameters.length).fault? args.length = none := by
    rw [Arity.fault?_eq_none_iff, fits]
    exact ⟨le_rfl, fun most same => (Option.some.inj same).le⟩
  rw [Function.bodyProgram, exact]

/-- An application ends as the program of the function does. -/
theorem sameEnd_applyWithin (w : World) (n : Nat) (f : Function) (args : List Expr)
    (scope : ScopeId) (m : Machine) :
    SameEnd (applyWithin w (n + 1) f args scope m)
      ((f.program w args scope).run w (applyWithin w n) (m.enterCall f.name args)) :=
  .framed ..

/-- A builtin that is called as a special form does with the forms what its body does. -/
theorem exists_specialForm (form : e.properItems? = some (head :: es))
    (stands : HeadIs m.store scope f head) (code : f.code = .builtin op)
    (special : op.isSpecial = true) (supplied : op.body.supply ⟨op.name, scope⟩ es = .ok p) :
    ∃ m₁ : Machine, m₁.Agrees m ∧
      SameEnd (evaluate (applyWithin w (n + 1)) scope e m) (p.run w (applyWithin w n) m₁) := by
  obtain ⟨m₁, agrees, evaluated⟩ := exists_evaluate_form (applyWithin w (n + 1)) form stands
  have ends := sameEnd_applyWithin w n f es scope m₁
  rw [Function.program_builtin code supplied] at ends
  rw [evaluated, applyTo_special ((isSpecial_of_builtin code).trans special)]
  exact ⟨_, (Machine.Agrees.enterCall m₁ f.name es).trans agrees, ends⟩

/-- Where no call may be nested, such a form is refused. -/
theorem overflowed_specialForm (form : e.properItems? = some (head :: es))
    (stands : HeadIs m.store scope f head) (code : f.code = .builtin op)
    (special : op.isSpecial = true) : Overflowed (evaluate (applyWithin w 0) scope e m) := by
  obtain ⟨m₁, _, evaluated⟩ := exists_evaluate_form (applyWithin w 0) form stands
  rw [evaluated, applyTo_special ((isSpecial_of_builtin code).trans special)]
  trivial

/-- A call whose head is the function of a builtin. -/
def Sexp.Calls (op : Builtin) (args : List Expr) (e : Expr) : Prop :=
  ∃ f : Function, f.code = .builtin op ∧ e.properItems? = some (.function f :: args)

/-- The function of a builtin as an expression. -/
def builtinObject (op : Builtin) : Expr := .function (.object ⟨0⟩ (.builtin op))

section Rules

variable {α : Type} {ρ : Likeness} {post : Likeness → α → Expr → Prop}
  {post' : Likeness → Expr → α → Prop} {run : Run α} {args : List Expr}

/-- A special form on the left does what its body does. -/
theorem endAlike_calls_left (calls : e.Calls op args) (special : op.isSpecial = true)
    (supplied : op.body.supply ⟨op.name, scope⟩ args = .ok p)
    (body : ∀ n, ρ.EndAlike post' (p.run w (applyWithin w n)) run) (n : Nat) :
    ρ.EndAlike post' (evaluate (applyWithin w n) scope e) run := by
  obtain ⟨f, code, items⟩ := calls
  intro m m' state
  cases n with
  | zero => exact .refused (.inl (overflowed_specialForm items rfl code special))
  | succ n =>
    obtain ⟨m₁, agrees, ends⟩ :=
      exists_specialForm (w := w) (n := n) (m := m) items rfl code special supplied
    exact (body n m₁ m' (state.of_agrees agrees (.refl m'))).congr ends (.refl _)

/-- A special form on the right does what its body does. -/
theorem endAlike_calls_right (calls : e.Calls op args) (special : op.isSpecial = true)
    (supplied : op.body.supply ⟨op.name, scope⟩ args = .ok p)
    (body : ∀ n, ρ.EndAlike post run (p.run w (applyWithin w n))) (k : Nat) :
    ρ.EndAlike post run (evaluate (applyWithin w k) scope e) := by
  obtain ⟨f, code, items⟩ := calls
  intro m m' state
  cases k with
  | zero => exact .refused (.inr (overflowed_specialForm items rfl code special))
  | succ k =>
    obtain ⟨m₁, agrees, ends⟩ :=
      exists_specialForm (w := w) (n := k) (m := m') items rfl code special supplied
    exact (body k m m₁ (state.of_agrees (.refl m) agrees)).congr (.refl _) ends

end Rules

end Lisp
