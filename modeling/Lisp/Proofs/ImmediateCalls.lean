import Lisp.Proofs.CallForms
import Lisp.Proofs.SiteConfinement

/-!
# Bindings and immediate calls

`(let ((x a) ...) body ...)` does the same as `((lambda (x ...) body ...) a ...)`. The one
evaluates the initial expressions inside of a call and binds the names itself, the other
evaluates them as arguments and leaves the binding to the call. The lambda is one object
more, so that what is made afterwards is numbered differently.
-/

namespace Lisp

open Likeness

variable {w : World} {m : Machine} {scope : ScopeId}

/-- A list of a name and an expression is a binding of the name. -/
theorem Library.binding_of_properItems? (site : Site) {b e : Expr} {name : String}
    (list : b.properItems? = some [.symbol name, e]) : binding site b = .ok (name, some e) := by
  obtain ⟨id, mark, tail, rfl, rest⟩ := exists_pair_of_properItems? list
  obtain ⟨id', mark', last, rfl, rest⟩ := exists_pair_of_properItems? rest
  have ends : last.isNil = true := by
    cases last with
    | pair => simp [Sexp.properItems?_pair] at rest
    | nil => rfl
    | bool b => cases b <;> first | rfl | cases rest
    | _ => cases rest
  simp [binding, ends]

section Parts

variable {ρ : Likeness} (uniform : w.Uniform) (n k : Nat)

include uniform

/-- Initial expressions are evaluated as arguments are. -/
theorem endAlike_initialValues (site : Site) {bs : List Expr} {pairs : List (String × Expr)}
    (bindings : List.Forall₂ (fun b p => Library.binding site b = .ok (p.1, some p.2)) bs pairs)
    (known : ρ.LikeAll (pairs.map Prod.snd) (pairs.map Prod.snd)) :
    ρ.EndAlike
      (fun σ values args => args.length = pairs.length ∧
        List.Forall₂ σ.LikeBinding values ((pairs.map Prod.fst).zip args))
      ((Library.initialValues site bs).run w (applyWithin w n))
      ((pairs.map Prod.snd).mapM (evaluate (applyWithin w k) site.scope)) := by
  induction bindings generalizing ρ with
  | nil => exact .pure ⟨rfl, .nil⟩
  | @cons b p bs pairs bound _ ih =>
    cases known with
    | cons first rest =>
      have does : (Library.initialValues site (b :: bs)).run w (applyWithin w n) =
          evaluate (applyWithin w n) site.scope p.2 >>= fun v =>
            (Library.initialValues site bs).run w (applyWithin w n) >>= fun values =>
              pure ((p.1, v) :: values) := by
        rw [Library.initialValues, bound]
        refine bind_congr fun v => ?_
        exact Program.run_andThen w _ (Library.initialValues site bs) fun values =>
          pure ((p.1, v) :: values)
      rw [does, List.map_cons, List.map_cons, List.mapM_cons]
      refine (endAlike_evaluate uniform n k site.scope first).bind fun σ le v v' value => ?_
      refine (ih (LikeAll.mono le rest)).bind ?_
      rintro τ le' values args ⟨count, bound⟩
      exact .pure ⟨congrArg (· + 1) count, .cons ⟨rfl, value.mono le'⟩ bound⟩

/-- Below a scope with alike values a body is evaluated alike. -/
theorem endAlike_enter (outer : ScopeId) {values values' : List (String × Expr)}
    (bound : List.Forall₂ ρ.LikeBinding values values') {body : List Expr}
    (known : ρ.LikeAll body body) :
    ρ.EndAlike Like
      ((Program.enter outer values >>= fun inner => Program.evalBody inner body).run w
        (applyWithin w n))
      ((Program.enter outer values' >>= fun inner => Program.evalBody inner body).run w
        (applyWithin w k)) := by
  refine endAlike_run uniform n k fun o => ?_
  refine (LikeProgram.ask (.enter outer bound)).bind fun σ le inner inner' same => ?_
  subst same
  exact likeProgram_evalBody inner (LikeAll.mono le known)

/-- The initial expressions and the body of `let`, and the arguments of a lambda and its call. -/
theorem endAlike_letParallel (site : Site) {bs body : List Expr} {pairs : List (String × Expr)}
    (bindings : List.Forall₂ (fun b p => Library.binding site b = .ok (p.1, some p.2)) bs pairs)
    (known : ρ.LikeAll (pairs.map Prod.snd) (pairs.map Prod.snd)) (bodyKnown : ρ.LikeAll body body)
    {f : Function} (code : f.code = .lambda (pairs.map Prod.fst) body) :
    ρ.EndAlike Like
      ((Library.initialValues site bs >>= fun values =>
        Program.enter site.scope values >>= fun inner => Program.evalBody inner body).run w
          (applyWithin w n))
      (applyTo (applyWithin w k) site.scope (pairs.map Prod.snd) f) := by
  have ordinary : f.isSpecial = false := by rw [Function.isSpecial, code]; rfl
  rw [applyTo_ordinary ordinary, Program.run_andThen]
  refine (endAlike_initialValues uniform n k site bindings known).bind ?_
  rintro σ le values args ⟨count, bound⟩
  cases k with
  | zero => exact fun _ _ _ => .refused (.inr trivial)
  | succ k =>
    have does : f.program w args site.scope =
        (Program.enter site.scope ((pairs.map Prod.fst).zip args) >>= fun inner =>
          Program.evalBody inner body) := by
      rw [Function.program, code]
      exact bodyProgram_eq (count.trans (List.length_map Prod.fst).symm) _ _ _
    have body := endAlike_enter uniform n k site.scope bound (LikeAll.mono le bodyKnown)
    rw [← does] at body
    exact body.framed_right f.name args

end Parts

/-- An abstraction that is evaluated makes one lambda. -/
theorem exists_evaluate_abstraction {e head parameters : Expr} {names : List String}
    {body : List Expr} {f : Function} (n : Nat) (code : f.code = .builtin .lambda)
    (stands : HeadIs m.store scope f head)
    (form : e.properItems? = some (head :: parameters :: body))
    (list : parameters.properItems? = some (names.map .symbol)) :
    ∃ m₁ : Machine, m₁.Agrees { m with objects := m.objects + 1 } ∧
      evaluate (applyWithin w (n + 1)) scope e m =
        .ok (.function (.object ⟨m.objects⟩ (.lambda names body))) m₁ := by
  obtain ⟨m₁, agrees, ends⟩ := exists_specialForm (w := w) (n := n) form stands code rfl rfl
  dsimp only at ends
  rw [parameters_symbols _ names list] at ends
  change SameEnd _ (.ok (Sexp.function (Function.object ⟨m₁.objects⟩ (Code.lambda names body)))
    { m₁ with objects := m₁.objects + 1 }) at ends
  rw [agrees.objects] at ends
  obtain ⟨m₂, evaluated, agrees'⟩ := ends.exists_ok
  refine ⟨m₂, agrees'.trans ⟨agrees.store, ?_, agrees.printed, agrees.requested⟩, evaluated⟩
  rfl

/-- `(let ((x a) ...) body ...)`. -/
def Sexp.IsLet (pairs : List (String × Expr)) (body : List Expr) (e : Expr) : Prop :=
  ∃ (bindings : Expr) (bs : List Expr),
    e.properItems? = some (.symbol "let" :: bindings :: body) ∧ bindings.properItems? = some bs ∧
    List.Forall₂ (fun (b : Expr) p => b.properItems? = some [.symbol p.1, p.2]) bs pairs

/-- `((lambda (x ...) body ...) a ...)`. -/
def Sexp.IsLambdaCall (pairs : List (String × Expr)) (body : List Expr) (e : Expr) : Prop :=
  ∃ abstraction parameters : Expr, e.properItems? = some (abstraction :: pairs.map Prod.snd) ∧
    abstraction.properItems? = some (.symbol "lambda" :: parameters :: body) ∧
    parameters.properItems? = some ((pairs.map Prod.fst).map .symbol)

/-- In every scope, `let` with bindings of names to expressions does the same as an immediate
call of a lambda with these names as parameters and the expressions as arguments. -/
theorem World.eval_let_eq_lambda (w : World) (uniform : w.Uniform) (m : Machine) (sound : m.Sound)
    (scope : ScopeId) (resolvesLet : m.store.Resolves scope .letParallel)
    (resolvesLambda : m.store.Resolves scope .lambda) (pairs : List (String × Expr))
    (body : List Expr) (known : ∀ e ∈ pairs.map Prod.snd ++ body, m.Knows e)
    (letForm callForm : Expr) (isLet : letForm.IsLet pairs body)
    (isCall : callForm.IsLambdaCall pairs body)
    (answered : ¬ Overflowed (w.eval scope letForm m))
    (answered' : ¬ Overflowed (w.eval scope callForm m)) :
    SameUpToMade m.objects (w.eval scope letForm m) (w.eval scope callForm m) := by
  obtain ⟨bindings, bs, letItems, bindingItems, pairItems⟩ := isLet
  obtain ⟨abstraction, parameters, callItems, lambdaItems, parameterItems⟩ := isCall
  obtain ⟨letFunction, letCode, letNamed⟩ := resolvesLet
  obtain ⟨lambdaFunction, lambdaCode, lambdaNamed⟩ := resolvesLambda
  refine .of_likeEnd ?_ answered answered'
  rw [World.eval, World.eval]
  cases w.maxDepth - m.depth with
  | zero => exact .refused (.inl (overflowed_specialForm letItems letNamed letCode rfl))
  | succ n =>
    obtain ⟨m₁, agrees, ends⟩ :=
      exists_specialForm (w := w) (n := n) letItems letNamed letCode rfl rfl
    dsimp only at ends
    rw [Site.list_of_properItems? bindingItems] at ends
    obtain ⟨id, mark, tail, isPair, -⟩ := exists_pair_of_properItems? lambdaItems
    obtain ⟨m₂, agrees', abstracted⟩ := exists_evaluate_abstraction (w := w)
      (m := m.countEvaluation) n lambdaCode lambdaNamed lambdaItems parameterItems
    have named : callee scope abstraction (evaluate (applyWithin w (n + 1)) scope abstraction)
        m.countEvaluation =
          .ok (.object ⟨m.objects⟩ (.lambda (pairs.map Prod.fst) body)) m₂ := by
      subst isPair
      rw [callee, bind_of_ok abstracted]
      rfl
    rw [evaluate_form callItems, bind_of_ok named]
    have bound := pairItems.imp fun b p items =>
      Library.binding_of_properItems? ⟨"let", scope⟩ items
    have inits : (below m.objects).LikeAll (pairs.map Prod.snd) (pairs.map Prod.snd) :=
      List.forall₂_same.mpr fun e mem => like_below (known e (List.mem_append_left _ mem))
    have bodies : (below m.objects).LikeAll body body :=
      List.forall₂_same.mpr fun e mem => like_below (known e (List.mem_append_right _ mem))
    -- The lambda is the one object that only the call makes.
    have le := (below m.objects).le_skip (settled_below m.objects) 1
    have state := (likeMachine_below sound).skip (settled_below m.objects) 1
    have inner := endAlike_letParallel uniform n (n + 1) ⟨"let", scope⟩ bound
      (LikeAll.mono le inits) (LikeAll.mono le bodies)
      (f := .object ⟨m.objects⟩ (.lambda (pairs.map Prod.fst) body)) rfl m₁ m₂
      (state.of_agrees agrees (agrees'.trans ⟨rfl, rfl, rfl, rfl⟩))
    exact (inner.congr ends (.refl _)).mono le

/-- `(let ((x 1) (x 2)) x)`. -/
def repeatedLet : Expr :=
  listFrom 0 [.symbol "let",
    listFrom 3 [listFrom 5 [.symbol "x", .integer 1], listFrom 7 [.symbol "x", .integer 2]],
    .symbol "x"]

/-- `((lambda (x x) x) 1 2)`. -/
def repeatedCall : Expr :=
  listFrom 9
    [listFrom 12 [.symbol "lambda", listFrom 15 [.symbol "x", .symbol "x"], .symbol "x"],
      .integer 1, .integer 2]

theorem World.eval_let_eq_lambda_repeated :
    ¬ Overflowed (World.eval {} Store.root repeatedLet Machine.initial) ∧
      ¬ Overflowed (World.eval {} Store.root repeatedCall Machine.initial) ∧
      SameUpToMade Machine.initial.objects (World.eval {} Store.root repeatedLet Machine.initial)
        (World.eval {} Store.root repeatedCall Machine.initial) := by
  have answered : ¬ Overflowed (World.eval {} Store.root repeatedLet Machine.initial) :=
    not_overflowed_of_isOk (by decide +kernel)
  have answered' : ¬ Overflowed (World.eval {} Store.root repeatedCall Machine.initial) :=
    not_overflowed_of_isOk (by decide +kernel)
  refine ⟨answered, answered', World.eval_let_eq_lambda {} (uniform_of_unregistered rfl) _
    Machine.sound_initial _ (Store.resolves_withBuiltins _) (Store.resolves_withBuiltins _)
    [("x", .integer 1), ("x", .integer 2)] [.symbol "x"] ?_ _ _ ?_ ?_ answered answered'⟩
  · intro e mem i there
    simp only [List.map_cons, List.map_nil, List.cons_append, List.nil_append, List.mem_cons,
      List.not_mem_nil, or_false] at mem
    rcases mem with rfl | rfl | rfl <;> cases there
  · exact ⟨_, _, rfl, rfl, .cons rfl (.cons rfl .nil)⟩
  · exact ⟨_, _, rfl, rfl, rfl⟩

end Lisp
