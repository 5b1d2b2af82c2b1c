import Lisp.Proofs.LikeMachines
import Lisp.Proofs.UniformLibrary

/-!
# Evaluation treats identities as opaque

Evaluations of alike expressions on alike machines go in step: they have the same effects in
the same order, fail with the same error or return alike values, and make as many objects.
This holds however deeply calls are nested on either side, as long as neither is refused for
that. Every function is a program, alike functions do alike, and evaluation itself looks at a
value only to see what kind it is.

It is assumed of the registered functions that they are uniform, too: that such a function
does alike with alike arguments, so that it compares identities and differences of counters,
but does not look at them.
-/

namespace Lisp

open Likeness

/-- Whether all registered functions do alike with alike arguments. -/
def World.Uniform (w : World) : Prop :=
  ∀ r ∈ w.registered, ∀ (o : Outset) (ρ : Likeness) site args args', ρ.LikeAll args args' →
    ρ.LikeProgram o Like (r.run site args) (r.run site args')

theorem World.uniform_of_unregistered {w : World} (library : w.registered = #[]) : w.Uniform := by
  intro r mem
  rw [library] at mem
  exact absurd mem (by simp)

section Functions

variable {o : Outset} {ρ : Likeness} {w : World} {args args' : List Expr}

theorem likeBinding_zip (parameters : List String) (known : ρ.LikeAll args args') :
    List.Forall₂ ρ.LikeBinding (parameters.zip args) (parameters.zip args') := by
  induction known generalizing parameters with
  | nil => simp
  | cons first _ ih =>
    cases parameters with
    | nil => exact .nil
    | cons name parameters => exact .cons ⟨rfl, first⟩ (ih parameters)

theorem likeProgram_bodyProgram (name : String) (parameters : List String) {body body' : List Expr}
    (bodyKnown : ρ.LikeAll body body') (known : ρ.LikeAll args args') (outer : ScopeId) :
    ρ.LikeProgram o Like (Function.bodyProgram name parameters body args outer)
      (Function.bodyProgram name parameters body' args' outer) := by
  rw [Function.bodyProgram, Function.bodyProgram, known.length_eq]
  split
  · exact .fail _
  · refine (LikeProgram.ask (.enter outer (likeBinding_zip parameters known))).bind
      fun σ le inner inner' same => ?_
    subst same
    exact likeProgram_evalBody inner (LikeAll.mono le bodyKnown)

/-- Alike functions do alike with alike arguments. -/
theorem likeProgram_program (h : w.Uniform) {f f' : Function} (function : ρ.LikeFunction f f')
    (known : ρ.LikeAll args args') (scope : ScopeId) :
    ρ.LikeProgram o Like (f.program w args scope) (f'.program w args' scope) := by
  cases function with
  | function same code =>
    cases code with
    | builtin op =>
      have supplied := op.uniform_body.supply (o := o) ⟨op.name, scope⟩ known
      simp only [Function.program, Function.code]
      generalize op.body.supply ⟨op.name, scope⟩ args = r,
        op.body.supply ⟨op.name, scope⟩ args' = r' at supplied
      cases supplied with
      | ok p => exact p
      | error fault => exact .fail _
    | registered name entry =>
      simp only [Function.program, Function.code]
      split
      · rename_i r found
        rw [known.length_eq]
        split
        · exact .fail _
        · exact h r (Array.mem_of_getElem? found) o ρ _ _ _ known
      · exact .fail _
    | named name ps body => exact likeProgram_bodyProgram name ps body known scope
    | lambda ps body => exact likeProgram_bodyProgram _ ps body known scope
    | closure ps captured body => exact likeProgram_bodyProgram _ ps body known captured

end Functions

section Evaluation

variable {o : Outset} {ρ : Likeness} {w : World} {apply apply' : Applier}

/-- Ways to apply functions that do alike with alike arguments. -/
def InStepAppliers (o : Outset) (apply apply' : Applier) : Prop :=
  ∀ (ρ : Likeness) f f' args args' scope, ρ.LikeFunction f f' → ρ.LikeAll args args' →
    ρ.InStep o Like (apply f args scope) (apply' f' args' scope)

theorem inStep_functionOfValue {v v' : Expr} (value : ρ.Like v v') :
    ρ.InStep o LikeFunction (functionOfValue v) (functionOfValue v') := by
  have spelled := value.text_eq
  cases value with
  | function same code => exact .pure (.function same code)
  | _ =>
    simp only [functionOfValue, spelled]
    exact .throw _

theorem inStep_functionNamed (scope : ScopeId) (name : String) :
    ρ.InStep o LikeFunction (functionNamed scope name) (functionNamed scope name) := by
  refine .modify_bind (fun _ _ => LikeCounting.countLookup) fun m m' state => ?_
  have found := state.store.function? scope name
  rw [get_bind, get_bind]
  generalize m.store.function? scope name = f?, m'.store.function? scope name = f?' at found
  cases found with
  | none => exact .error _ le_rfl state
  | some value =>
    have spelled := value.text_eq
    cases value with
    | function same code => exact .ok le_rfl (.function same code) state
    | _ =>
      simp only [spelled]
      exact .error _ le_rfl state

theorem inStep_callee (scope : ScopeId) {head head' : Expr} (known : ρ.Like head head')
    {evaluated evaluated' : Run Expr} (h : ρ.InStep o Like evaluated evaluated') :
    ρ.InStep o LikeFunction (callee scope head evaluated) (callee scope head' evaluated') := by
  cases known with
  | symbol name => exact inStep_functionNamed scope name
  | pair => exact h.bind fun σ _ v v' value => inStep_functionOfValue value
  | function same code => exact inStep_functionOfValue (.function same code)
  | nil => exact inStep_functionOfValue .nil
  | bool b => exact inStep_functionOfValue (.bool b)
  | integer n => exact inStep_functionOfValue (.integer n)
  | float x => exact inStep_functionOfValue (.float x)
  | string text => exact inStep_functionOfValue (.string text)

/-- Evaluations of alike expressions go in step if applications do. -/
theorem inStep_evaluate (applied : InStepAppliers o apply apply') (scope : ScopeId) {e e' : Expr}
    (known : ρ.Like e e') : ∀ σ, ρ ≤ σ →
    σ.InStep o Like (evaluate apply scope e) (evaluate apply' scope e') ∧
      σ.InStep o LikeAll (evaluateItems apply scope e) (evaluateItems apply' scope e') := by
  -- The likeness grows while the head and the arguments before are evaluated.
  induction known using Like.spine with
  | @pair i j mark _ _ argList argList' same head args ihHead ihArgs =>
    intro σ le
    constructor
    · intro m m' state
      rw [evaluate_pair, evaluate_pair]
      refine (inStep_callee scope (head.mono le) (ihHead σ le).1).bind
        (fun τ le' f f' function => ?_) _ _ state.countEvaluation
      have items := (args.mono (le.trans le')).properItems?
      rw [callWith, callWith, (Like.pair mark same head args).text_eq]
      generalize argList.properItems? = items?, argList'.properItems? = items?' at items
      cases items with
      | none => exact .throw _
      | some items =>
        rw [function.isSpecial_eq]
        cases f'.isSpecial with
        | true => exact applied τ f f' _ _ scope function items
        | false =>
          exact (ihArgs τ (le.trans le')).2.bind fun υ le'' values values' known =>
            applied υ f f' values values' scope (function.mono le'') known
    · rw [evaluateItems, evaluateItems]
      refine (ihHead σ le).1.bind fun τ le' v v' value => ?_
      refine (ihArgs τ (le.trans le')).2.bind fun υ le'' vs vs' values => ?_
      exact .pure (.cons (value.mono le'') values)
  | atom h atom =>
    intro σ le
    have value := h.mono le
    cases h with
    | pair => cases atom
    | symbol name =>
      refine ⟨.modify_bind (fun _ _ => LikeCounting.countEvaluation) (.modify_bind
        (fun _ _ => LikeCounting.countLookup) fun m m' state => ?_), .pure .nil⟩
      have held := state.store.value? scope name
      rw [get_bind, get_bind]
      generalize m.store.value? scope name = v?, m'.store.value? scope name = v?' at held
      cases held with
      | none => exact .error _ le_rfl state
      | some value => exact .ok le_rfl value state
    | _ => exact ⟨.modify_bind (fun _ _ => LikeCounting.countEvaluation) (.modify_bind
        (fun _ _ => LikeCounting.countLiteral) (.pure value)), .pure .nil⟩

/-- Switching the call trace on makes no difference. -/
theorem LikeRun.traced {α β : Type} {post : Likeness → α → β → Prop} {run : Run α} {run' : Run β}
    (h : ρ.InStep o post run run') : ρ.InStep o post (traced run) (traced run') := by
  intro m m' state
  have ends := h { m with tracing := true } { m' with tracing := true } { state with }
  unfold Lisp.traced
  generalize run { m with tracing := true } = r, run' { m' with tracing := true } = r' at ends
  cases ends with
  | refused refused =>
    rcases refused with left | right
    · obtain ⟨depth, m₁, rfl⟩ := left.exists_error
      exact .refused (.inl trivial)
    · obtain ⟨depth, m₁, rfl⟩ := right.exists_error
      exact .refused (.inr trivial)
  | ok le value state => exact .ok le value { state with }
  | error e le state => exact .error e le { state with }

theorem LikeRun.framed {run run' : Run Expr} (h : ρ.InStep o Like run run') (name name' : String)
    (args args' : List Expr) :
    ρ.InStep o Like (framed name args run) (framed name' args' run') := by
  intro m m' state
  have ends := h _ _ (state.enterCall name name' args args')
  unfold Lisp.framed
  generalize run (m.enterCall name args) = r, run' (m'.enterCall name' args') = r' at ends
  cases ends with
  | refused refused =>
    rcases refused with left | right
    · obtain ⟨depth, m₁, rfl⟩ := left.exists_error
      exact .refused (.inl trivial)
    · obtain ⟨depth, m₁, rfl⟩ := right.exists_error
      exact .refused (.inr trivial)
  | ok le value state => exact .ok le value (state.leaveCall ..)
  | error e le state => exact .error e le (state.leaveCall ..)

/-- Alike programs go in step if applications do. -/
theorem inStep_run (w : World) {α β : Type} {post : Likeness → α → β → Prop} {p : Program α}
    {p' : Program β} (applied : InStepAppliers o apply apply') (h : ρ.LikeProgram o post p p') :
    ρ.InStep o post (p.run w apply) (p'.run w apply') := by
  induction h with
  | done same => exact .pure same
  | fail e => exact .throw e
  | perform asked _ ih => exact (inStep_perform w asked).bind ih
  | eval scope known _ ih => exact (inStep_evaluate applied scope known _ le_rfl).1.bind ih
  | call scope function known _ ih => exact (applied _ _ _ _ _ scope function known).bind ih
  | traced scope known _ ih => exact (inStep_evaluate applied scope known _ le_rfl).1.traced.bind ih

/-- Applications go in step, however many calls may still be nested on either side. -/
theorem inStep_applyWithin (uniform : w.Uniform) (n k : Nat) :
    InStepAppliers o (applyWithin w n) (applyWithin w k) := by
  induction n generalizing k with
  | zero => exact fun _ _ _ _ _ _ _ _ _ _ _ => .refused (.inl trivial)
  | succ n ih =>
    cases k with
    | zero => exact fun _ _ _ _ _ _ _ _ _ _ _ => .refused (.inr trivial)
    | succ k =>
      intro ρ f f' args args' scope function known
      have body := inStep_run w (ih k) (likeProgram_program uniform function known scope)
      exact body.framed f.name f'.name args args'

end Evaluation

end Lisp
