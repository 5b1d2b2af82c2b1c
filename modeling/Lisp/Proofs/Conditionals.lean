import Lisp.Proofs.CallForms

/-!
# Conditionals and their expansions

`cond` does the same as nested `if` forms whose branches are `progn` forms, and so do `when`
and `unless` as single ones. Of clauses, the tests are evaluated in order up to the first that
is true, and then the body behind it, each expression once.

The builtins stand at the head of the forms themselves, so that nothing that is evaluated can
redefine them. The expansion nests its calls deeper with each clause, while `cond` is one call.
-/

namespace Lisp

open Likeness

/-- `(if test (progn form ...) (if ... nil))` for clauses `(test form ...)` with at least one
form behind the test. -/
inductive Expansion : List Expr → Expr → Prop where
  | nil : Expansion [] .nil
  | cons {clause test first body tail e : Expr} {rest clauses : List Expr} :
      clause.properItems? = some (test :: first :: rest) → body.Calls .progn (first :: rest) →
      Expansion clauses tail → e.Calls .ifElse [test, body, tail] → Expansion (clause :: clauses) e

/-- How clauses end: with the failure of a test, with the body behind the first true test, whose
forms are evaluated in order, or with `nil` after all tests. -/
inductive ClausesEnd (run : Expr → Run Expr) :
    List Expr → Machine → EStateM.Result Error Machine Expr → Prop where
  | exhausted (m : Machine) : ClausesEnd run [] m (.ok .nil m)
  | failed {clause test : Expr} {body clauses : List Expr} {e : Error} {m m' : Machine} :
      clause.properItems? = some (test :: body) → run test m = .error e m' →
      ClausesEnd run (clause :: clauses) m (.error e m')
  | passed {clause test v : Expr} {body clauses : List Expr} {m m' : Machine}
      {r : EStateM.Result Error Machine Expr} :
      clause.properItems? = some (test :: body) → run test m = .ok v m' → v.isTrue = false →
      ClausesEnd run clauses m' r → ClausesEnd run (clause :: clauses) m r
  | chosen {clause test v : Expr} {body clauses : List Expr} {m m' : Machine} :
      clause.properItems? = some (test :: body) → run test m = .ok v m' → v.isTrue = true →
      ClausesEnd run (clause :: clauses) m
        ((body.mapM run >>= fun values => pure (values.getLast?.getD .nil)) m')

variable {w : World} {scope : ScopeId} {ρ : Likeness}

theorem run_eval (apply : Applier) (site : Site) (e : Expr) :
    (site.eval e).run w apply = evaluate apply site.scope e :=
  bind_pure (evaluate apply site.scope e)

/-- A body is evaluated form by form. -/
theorem run_evalBody (apply : Applier) (body : List Expr) :
    (Program.evalBody scope body).run w apply =
      (body.mapM (evaluate apply scope) >>= fun values => pure (values.getLast?.getD .nil)) := by
  induction body with
  | nil => rfl
  | cons e rest ih =>
    cases rest with
    | nil => simp [Program.evalBody, Program.evalIn, Program.run]
    | cons next rest =>
      rw [Program.evalBody, Program.run, ih]
      · simp [List.getLast?_cons_cons]
      · exact List.cons_ne_nil next rest

/-- The value of a form for the other case, or `nil` without one. -/
def otherwise (apply : Applier) (scope : ScopeId) : Option Expr → Run Expr
  | some no => evaluate apply scope no
  | none => pure .nil

/-- What an `if` form does with its expressions. -/
theorem exists_supply_if (w : World) (scope : ScopeId) (test yes : Expr) (no? : Option Expr) :
    ∃ p, Builtin.ifElse.body.supply ⟨"if", scope⟩ (test :: yes :: no?.toList) = .ok p ∧
      ∀ apply, p.run w apply = evaluate apply scope test >>= fun v =>
        if v.isTrue then evaluate apply scope yes else otherwise apply scope no? := by
  cases no? with
  | none =>
    refine ⟨_, rfl, fun apply => ?_⟩
    rw [Program.run_andThen, run_eval]
    refine bind_congr fun v => ?_
    split
    · exact run_eval ..
    · rfl
  | some no =>
    refine ⟨_, rfl, fun apply => ?_⟩
    rw [Program.run_andThen, run_eval]
    refine bind_congr fun v => ?_
    split <;> exact run_eval ..

/-- What `when` and `unless` forms do with their expressions. -/
theorem run_guarded (apply : Applier) (site : Site) (expected : Bool) (test : Expr)
    (body : List Expr) :
    (do
      if (← site.eval test).isTrue == expected then Program.evalBody site.scope body
      else return .nil : Program Expr).run w apply =
      evaluate apply site.scope test >>= fun v =>
        if v.isTrue = expected then (Program.evalBody site.scope body).run w apply
        else pure .nil := by
  rw [Program.run_andThen, run_eval]
  refine bind_congr fun v => ?_
  simp only [beq_iff_eq]
  split <;> rfl

/-- What the first of several clauses comes to, if there is a body behind its test. -/
theorem run_clausesFrom_cons (apply : Applier) (name : String)
    {clause test first : Expr} {rest clauses : List Expr}
    (items : clause.properItems? = some (test :: first :: rest)) :
    (Library.clausesFrom ⟨name, scope⟩ (clause :: clauses)).run w apply =
      evaluate apply scope test >>= fun v =>
        if v.isTrue then (Program.evalBody scope (first :: rest)).run w apply
        else (Library.clausesFrom ⟨name, scope⟩ clauses).run w apply := by
  rw [Library.clausesFrom, items]
  simp only
  rw [Program.run_andThen, run_eval]
  refine bind_congr fun v => ?_
  split <;> rfl

/-- Whether behind every test of some clauses there is a body. -/
def HaveBodies (clauses : List Expr) : Prop :=
  ∀ clause ∈ clauses, ∃ test first rest, clause.properItems? = some (test :: first :: rest)

theorem clausesEnd (apply : Applier) (name : String) {clauses : List Expr}
    (bodies : HaveBodies clauses) (m : Machine) :
    ClausesEnd (evaluate apply scope) clauses m
      ((Library.clausesFrom ⟨name, scope⟩ clauses).run w apply m) := by
  induction clauses generalizing m with
  | nil => exact .exhausted m
  | cons clause clauses ih =>
    obtain ⟨⟨test, first, rest, items⟩, others⟩ := List.forall_mem_cons.mp bodies
    rw [run_clausesFrom_cons _ _ items]
    cases result : evaluate apply scope test m with
    | error e m' =>
      rw [bind_of_error result]
      exact .failed items result
    | ok v m' =>
      rw [bind_of_ok result]
      cases answer : v.isTrue with
      | true =>
        rw [if_pos rfl, run_evalBody]
        exact .chosen items result answer
      | false => exact .passed items result answer (ih others m')

theorem endAlike_nil (k : Nat) :
    ρ.EndAlike Like (pure .nil) (evaluate (applyWithin w k) scope .nil) :=
  fun m _ state => .ok le_rfl .nil (state.of_agrees (.refl m) ⟨rfl, rfl, rfl, rfl⟩)

section Choices

variable (uniform : w.Uniform) (itself : ρ.Reflexive) (n : Nat)

include uniform itself

/-- The forms of a body, and a `progn` form of them. -/
theorem endAlike_progn {body : List Expr} {progn : Expr} (calls : progn.Calls .progn body)
    (k : Nat) :
    ρ.EndAlike Like ((Program.evalBody scope body).run w (applyWithin w n))
      (evaluate (applyWithin w k) scope progn) :=
  endAlike_calls_right calls rfl rfl (fun k => endAlike_run uniform n k fun _ =>
    likeProgram_evalBody scope (itself.likeAll body)) k

/-- A choice on the left, and an `if` form with or without a form for the other case. -/
theorem endAlike_if {test yes ifForm : Expr} (no? : Option Expr)
    (calls : ifForm.Calls .ifElse (test :: yes :: no?.toList)) {chosen : Run Expr}
    {other : Run Expr}
    (whenTrue : ∀ σ, ρ ≤ σ → ∀ k, σ.EndAlike Like chosen (evaluate (applyWithin w k) scope yes))
    (whenFalse : ∀ σ, ρ ≤ σ → ∀ k, σ.EndAlike Like other (otherwise (applyWithin w k) scope no?))
    (k : Nat) :
    ρ.EndAlike Like
      (evaluate (applyWithin w n) scope test >>= fun v => if v.isTrue then chosen else other)
      (evaluate (applyWithin w k) scope ifForm) := by
  obtain ⟨p, supplied, does⟩ := exists_supply_if w scope test yes no?
  refine endAlike_calls_right calls rfl supplied (fun k => ?_) k
  rw [does]
  refine (endAlike_evaluate uniform n k scope (itself.like test)).bind fun σ le v v' value => ?_
  rw [value.isTrue_eq]
  split
  · exact whenTrue σ le k
  · exact whenFalse σ le k

/-- Clauses, and the nested conditionals that they expand to. -/
theorem endAlike_clauses {clauses : List Expr} {e : Expr} (expands : Expansion clauses e)
    (name : String) (k : Nat) :
    ρ.EndAlike Like ((Library.clausesFrom ⟨name, scope⟩ clauses).run w (applyWithin w n))
      (evaluate (applyWithin w k) scope e) := by
  induction expands generalizing ρ k with
  | nil => exact endAlike_nil k
  | @cons clause test first body tail e rest clauses items progn _ calls ih =>
    rw [run_clausesFrom_cons _ _ items]
    exact endAlike_if uniform itself n (some tail) calls
      (fun σ le k => endAlike_progn uniform (itself.mono le) n progn k)
      (fun σ le k => ih (itself.mono le) k) k

/-- A `when` form, and its expansion. -/
theorem endAlike_when {test progn whenForm ifForm : Expr} {body : List Expr}
    (whenCalls : whenForm.Calls .whenTrue (test :: body)) (prognCalls : progn.Calls .progn body)
    (ifCalls : ifForm.Calls .ifElse [test, progn]) (k : Nat) :
    ρ.EndAlike Like (evaluate (applyWithin w n) scope whenForm)
      (evaluate (applyWithin w k) scope ifForm) := by
  refine endAlike_calls_left whenCalls rfl rfl (fun n => ?_) n
  dsimp only
  rw [run_guarded]
  exact endAlike_if uniform itself n none ifCalls
    (fun σ le k => endAlike_progn uniform (itself.mono le) n prognCalls k)
    (fun _ _ _ => .pure .nil) k

/-- An `unless` form, and its expansion. -/
theorem endAlike_unless {test progn unlessForm ifForm : Expr} {body : List Expr}
    (unlessCalls : unlessForm.Calls .whenFalse (test :: body))
    (prognCalls : progn.Calls .progn body)
    (ifCalls : ifForm.Calls .ifElse [test, .nil, progn]) (k : Nat) :
    ρ.EndAlike Like (evaluate (applyWithin w n) scope unlessForm)
      (evaluate (applyWithin w k) scope ifForm) := by
  refine endAlike_calls_left unlessCalls rfl rfl (fun n => ?_) n
  dsimp only
  rw [run_guarded]
  simp only [← Bool.not_eq_true, ite_not]
  exact endAlike_if uniform itself n (some progn) ifCalls (fun _ _ k => endAlike_nil k)
    (fun σ le k => endAlike_progn uniform (itself.mono le) n prognCalls k) k

end Choices

/-- In every scope, `cond`, `when` and `unless` do the same as the `if` and `progn` forms that
they expand to, and `cond` evaluates its tests in order up to the first that is true, and the
body behind it. -/
theorem World.eval_conditionals (w : World) (uniform : w.Uniform) (m : Machine) (scope : ScopeId) :
    (∀ (clauses : List Expr) (cond nested : Expr), cond.Calls .cond clauses →
      Expansion clauses nested → ¬ Overflowed (w.eval scope cond m) →
      ¬ Overflowed (w.eval scope nested m) →
      SameEnd (w.eval scope cond m) (w.eval scope nested m)) ∧
    (∀ (test : Expr) (body : List Expr) (guarded progn choice : Expr),
      guarded.Calls .whenTrue (test :: body) → progn.Calls .progn body →
      choice.Calls .ifElse [test, progn] → ¬ Overflowed (w.eval scope guarded m) →
      ¬ Overflowed (w.eval scope choice m) →
      SameEnd (w.eval scope guarded m) (w.eval scope choice m)) ∧
    (∀ (test : Expr) (body : List Expr) (guarded progn choice : Expr),
      guarded.Calls .whenFalse (test :: body) → progn.Calls .progn body →
      choice.Calls .ifElse [test, .nil, progn] → ¬ Overflowed (w.eval scope guarded m) →
      ¬ Overflowed (w.eval scope choice m) →
      SameEnd (w.eval scope guarded m) (w.eval scope choice m)) ∧
    (∀ (clauses : List Expr) (cond : Expr), cond.Calls .cond clauses → HaveBodies clauses →
      ¬ Overflowed (w.eval scope cond m) →
      ∃ (n : Nat) (m₁ : Machine) (r : EStateM.Result Error Machine Expr),
        n + 1 = w.maxDepth - m.depth ∧ m₁.Agrees m ∧
        ClausesEnd (evaluate (applyWithin w n) scope) clauses m₁ r ∧
        SameEnd (w.eval scope cond m) r) := by
  have itself := reflexive_same m.objects
  have state := likeMachine_same (.refl m)
  refine ⟨fun clauses cond nested calls expands answered answered' => ?_,
    fun test body guarded progn choice calls prognCalls choiceCalls answered answered' => ?_,
    fun test body guarded progn choice calls prognCalls choiceCalls answered answered' => ?_,
    fun clauses cond calls bodies answered => ?_⟩
  · exact .of_likeEnd (endAlike_calls_left calls rfl rfl (fun n =>
      endAlike_clauses uniform itself n expands _ _) _ m m state) answered answered'
  · exact .of_likeEnd (endAlike_when uniform itself _ calls prognCalls choiceCalls _ m m state)
      answered answered'
  · exact .of_likeEnd (endAlike_unless uniform itself _ calls prognCalls choiceCalls _ m m state)
      answered answered'
  · obtain ⟨f, code, items⟩ := calls
    rw [World.eval] at answered ⊢
    cases room : w.maxDepth - m.depth with
    | zero =>
      rw [room] at answered
      exact absurd (overflowed_specialForm items rfl code rfl) answered
    | succ n =>
      obtain ⟨m₁, agrees, ends⟩ :=
        exists_specialForm (w := w) (n := n) (m := m) items rfl code rfl rfl
      exact ⟨n, m₁, _, rfl, agrees, clausesEnd _ _ bodies m₁, ends⟩

/-- `(cond (nil 1) (t 2 3))`. -/
def twoClauses : Expr :=
  listFrom 1 [builtinObject .cond, listFrom 4 [.nil, .integer 1],
    listFrom 6 [.bool true, .integer 2, .integer 3]]

/-- `(if nil (progn 1) (if t (progn 2 3) nil))`. -/
def twoChoices : Expr :=
  listFrom 9 [builtinObject .ifElse, .nil, listFrom 13 [builtinObject .progn, .integer 1],
    listFrom 15 [builtinObject .ifElse, .bool true,
      listFrom 19 [builtinObject .progn, .integer 2, .integer 3], .nil]]

theorem World.eval_conditionals_second_clause :
    ¬ Overflowed (World.eval {} Store.root twoClauses Machine.bare) ∧
      ¬ Overflowed (World.eval {} Store.root twoChoices Machine.bare) ∧
      SameEnd (World.eval {} Store.root twoClauses Machine.bare)
        (World.eval {} Store.root twoChoices Machine.bare) := by
  have answered : ¬ Overflowed (World.eval {} Store.root twoClauses Machine.bare) :=
    not_overflowed_of_isOk (by decide +kernel)
  have answered' : ¬ Overflowed (World.eval {} Store.root twoChoices Machine.bare) :=
    not_overflowed_of_isOk (by decide +kernel)
  have last : Expansion [listFrom 6 [.bool true, .integer 2, .integer 3]]
      (listFrom 15 [builtinObject .ifElse, .bool true,
        listFrom 19 [builtinObject .progn, .integer 2, .integer 3], .nil]) :=
    .cons rfl ⟨_, rfl, rfl⟩ .nil ⟨_, rfl, rfl⟩
  obtain ⟨cond, -⟩ :=
    World.eval_conditionals {} (uniform_of_unregistered rfl) Machine.bare Store.root
  have expands : Expansion
      [listFrom 4 [.nil, .integer 1], listFrom 6 [.bool true, .integer 2, .integer 3]] twoChoices :=
    .cons rfl ⟨_, rfl, rfl⟩ last ⟨_, rfl, rfl⟩
  exact ⟨answered, answered', cond _ _ _ ⟨_, rfl, rfl⟩ expands answered answered'⟩

end Lisp
