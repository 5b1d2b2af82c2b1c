import Lisp.Proofs.UniformSites

/-!
# Special forms treat identities as opaque

The forms of control, binding, assignment and definition, and the builtins that look at
evaluation itself, do alike with alike arguments. They choose by the truth and the shape of
values, which are the same for alike ones, and hand on what they were given. Counted
evaluation looks at the counters twice and only uses the difference.
-/

namespace Lisp.Library

open Program Likeness

variable {o : Outset} {ρ : Likeness} {site : Site} {e e' d d' : Expr} {es es' : List Expr}

section Control

theorem uniform_functionOf : functionOf.Uniform := by
  intro o ρ site e e' known
  have itself : ρ.LikeProgram o Like (pure e) (pure e') := .pure known
  refine .ite_bind (by rw [known.isPair_eq]) (site.likeProgram_eval known) itself
    fun σ _ target target' value => ?_
  refine (site.likeProgram_function 0 value).bind fun τ _ f f' function => ?_
  cases function with
  | function same code =>
    cases code with
    | lambda ps body =>
      refine (LikeProgram.ask (.newFunction (.closure ps site.scope body))).bind ?_
      exact fun _ _ _ _ made => .pure made
    | builtin op => exact .pure (.function same (.builtin op))
    | registered name entry => exact .pure (.function same (.registered name entry))
    | named name ps body => exact .pure (.function same (.named name ps body))
    | closure ps scope body => exact .pure (.function same (.closure ps scope body))

theorem uniform_conditional : conditional.Uniform := by
  intro o ρ site test test' yes yes' no? no?' known yesKnown noKnown
  refine (site.likeProgram_eval known).bind fun σ le v v' value => ?_
  rw [value.isTrue_eq]
  split
  · exact site.likeProgram_eval (yesKnown.mono le)
  · cases noKnown with
    | none => exact .pure .nil
    | some noKnown => exact site.likeProgram_eval (noKnown.mono le)

theorem likeProgram_conjunctionFrom (last : ρ.Like e e') (known : ρ.LikeAll es es') :
    ρ.LikeProgram o Like (conjunctionFrom site e es) (conjunctionFrom site e' es') := by
  induction es generalizing ρ e e' es' with
  | nil =>
    cases known
    exact .done last
  | cons _ _ ih =>
    cases known with
    | cons first rest =>
      refine (site.likeProgram_eval first).bind fun σ le v v' value => ?_
      rw [value.isNil_eq]
      split
      · exact .pure .nil
      · exact ih value (LikeAll.mono le rest)

theorem likeProgram_disjunctionFrom (known : ρ.LikeAll es es') :
    ρ.LikeProgram o Like (disjunctionFrom site es) (disjunctionFrom site es') := by
  induction es generalizing ρ es' with
  | nil =>
    cases known
    exact .done .nil
  | cons _ _ ih =>
    cases known with
    | cons first rest =>
      refine (site.likeProgram_eval first).bind fun σ le v v' value => ?_
      rw [value.isTrue_eq]
      split
      · exact .pure value
      · exact ih (LikeAll.mono le rest)

/-- Bindings that are written alike give the same name alike initial expressions. -/
theorem likeProgram_binding (known : ρ.Like e e') :
    ρ.LikeProgram o (fun σ p p' => p.1 = p'.1 ∧ Option.Rel σ.Like p.2 p'.2)
      (liftM (binding site e)) (liftM (binding site e')) := by
  refine .lift ?_
  have malformed :
      site.misuse (.malformedBinding e.text) = site.misuse (.malformedBinding e'.text) := by
    rw [known.text_eq]
  cases known with
  | symbol name => exact .ok ⟨rfl, .none⟩
  | pair mark same first second =>
    cases first with
    | symbol name =>
      cases second with
      | nil => exact .ok ⟨rfl, .none⟩
      | pair mark' same' initial last =>
        simp only [binding, last.isNil_eq, malformed]
        split
        · exact .ok ⟨rfl, .some initial⟩
        · exact .error _
      | _ =>
        simp only [binding, malformed]
        exact .error _
    | _ =>
      simp only [binding, malformed]
      exact .error _
  | _ =>
    simp only [binding, malformed]
    exact .error _

theorem likeProgram_initialValue (scope : ScopeId) {initial? initial?' : Option Expr}
    (known : Option.Rel ρ.Like initial? initial?') :
    ρ.LikeProgram o Like (initialValue scope initial?) (initialValue scope initial?') := by
  cases known with
  | none => exact .done .nil
  | some known => exact .evalIn scope known

theorem likeProgram_initialValues (known : ρ.LikeAll es es') :
    ρ.LikeProgram o (fun σ => List.Forall₂ σ.LikeBinding) (initialValues site es)
      (initialValues site es') := by
  induction es generalizing ρ es' with
  | nil =>
    cases known
    exact .done .nil
  | cons _ _ ih =>
    cases known with
    | cons first rest =>
      refine (likeProgram_binding first).bind ?_
      rintro ρ₁ le₁ ⟨name, initial?⟩ ⟨name', initial?'⟩ ⟨same, initial⟩
      refine (likeProgram_initialValue site.scope initial).bind fun ρ₂ le₂ v v' value => ?_
      refine (ih (LikeAll.mono (le₁.trans le₂) rest)).bind fun ρ₃ le₃ values values' others => ?_
      exact .pure (.cons ⟨same, value.mono le₃⟩ others)

theorem uniform_letParallel : letParallelBody.Uniform := by
  intro o ρ site bindings bindings' body body' known bodyKnown
  refine (site.likeProgram_list 0 known).bind
    fun ρ₁ le₁ bs bs' bsKnown => ?_
  refine (likeProgram_initialValues bsKnown).bind fun ρ₂ le₂ values values' valuesKnown => ?_
  refine (LikeProgram.ask (.enter site.scope valuesKnown)).bind fun ρ₃ le₃ inner inner' same => ?_
  subst same
  exact likeProgram_evalBody inner (bodyKnown.mono (le₁.trans (le₂.trans le₃)))

theorem likeProgram_nestedScope (scope : ScopeId) (known : ρ.LikeAll es es') :
    ρ.LikeProgram o (fun _ => Eq) (nestedScope site scope es) (nestedScope site scope es') := by
  induction es generalizing ρ scope es' with
  | nil =>
    cases known
    exact .ask (.enter scope .nil)
  | cons _ _ ih =>
    cases known with
    | cons first rest =>
      refine (likeProgram_binding first).bind ?_
      rintro ρ₁ le₁ ⟨name, initial?⟩ ⟨name', initial?'⟩ ⟨same, initial⟩
      refine (likeProgram_initialValue scope initial).bind fun ρ₂ le₂ v v' value => ?_
      have bound : ρ₂.LikeBinding (name, v) (name', v') := ⟨same, value⟩
      refine (LikeProgram.ask (.enter scope (.cons bound .nil))).bind
        fun ρ₃ le₃ inner inner' opened => ?_
      subst opened
      exact ih inner (LikeAll.mono (le₁.trans (le₂.trans le₃)) rest)

theorem uniform_letSequential : letSequentialBody.Uniform := by
  intro o ρ site bindings bindings' body body' known bodyKnown
  refine (site.likeProgram_list 0 known).bind
    fun ρ₁ le₁ bs bs' bsKnown => ?_
  refine (likeProgram_nestedScope site.scope bsKnown).bind fun ρ₂ le₂ inner inner' same => ?_
  subst same
  exact likeProgram_evalBody inner (bodyKnown.mono (le₁.trans le₂))

theorem parameterNames_eq (known : ρ.LikeAll es es') :
    parameterNames site es = parameterNames site es' := by
  induction known with
  | nil => rfl
  | cons first _ ih =>
    cases first with
    | symbol name => rw [parameterNames, parameterNames, ih]
    | _ => rfl

theorem parameters_eq (known : ρ.Like e e') : parameters site e = parameters site e' := by
  have items := known.properItems?
  rw [parameters, parameters, known.text_eq]
  generalize e.properItems? = items?, e'.properItems? = items?' at items
  cases items with
  | none => rfl
  | some items => exact parameterNames_eq items

theorem uniform_functionDefinition : functionDefinition.Uniform := by
  intro o ρ site name name' parameterList parameterList' body body' nameKnown known bodyKnown
  refine .check (site.symbol_eq 0 nameKnown) fun text => .check (parameters_eq known) fun ps => ?_
  refine (LikeProgram.ask (.newFunction (.named text ps bodyKnown))).bind
    fun ρ₁ le₁ f f' function => ?_
  refine (LikeProgram.ask (.defineFunction text function)).bind fun ρ₂ le₂ _ _ _ => ?_
  exact .pure (nameKnown.mono (le₁.trans le₂))

theorem uniform_abstraction : abstraction.Uniform := by
  intro o ρ site parameterList parameterList' body body' known bodyKnown
  refine .check (parameters_eq known) fun ps => ?_
  exact (LikeProgram.ask (.newFunction (.lambda ps bodyKnown))).bind fun _ _ _ _ made => .pure made

theorem likeProgram_clausesFrom (known : ρ.LikeAll es es') :
    ρ.LikeProgram o Like (clausesFrom site es) (clausesFrom site es') := by
  induction es generalizing ρ es' with
  | nil =>
    cases known
    exact .done .nil
  | cons clause rest ih =>
    cases known with
    | @cons _ clause' _ rest' first others =>
      have items := first.properItems?
      rw [clausesFrom, clausesFrom, first.text_eq]
      generalize clause.properItems? = items?, clause'.properItems? = items?' at items
      cases items with
      | none => exact .fail _
      | some items =>
        cases items with
        | nil => exact .fail _
        | cons test body =>
          refine (site.likeProgram_eval test).bind fun σ le v v' value => ?_
          rw [value.isTrue_eq]
          split
          · cases body with
            | nil => exact .pure value
            | cons first rest =>
              exact likeProgram_evalBody site.scope (LikeAll.mono le (.cons first rest))
          · exact ih (LikeAll.mono le others)

theorem uniform_guarded (expected : Bool) : (guarded expected).Uniform := by
  intro o ρ site test test' body body' known bodyKnown
  refine (site.likeProgram_eval known).bind fun σ le v v' value => ?_
  rw [value.isTrue_eq]
  split
  · exact likeProgram_evalBody site.scope (bodyKnown.mono le)
  · exact .pure .nil

theorem uniform_application : application.Uniform := by
  intro o ρ site function function' first first' rest rest' known firstKnown restKnown
  have args : ρ.LikeAll (first :: rest) (first' :: rest') := .cons firstKnown restKnown
  refine (site.likeProgram_function 0 known).bind fun ρ₁ le₁ f f' function => ?_
  have args := LikeAll.mono le₁ args
  dsimp only
  rw [args.length_eq]
  refine (site.likeProgram_list _ (LikeAll.getLast args _ _)).bind
    fun ρ₂ le₂ spread spread' others => ?_
  exact site.likeProgram_call (function.mono le₂)
    (List.rel_append (LikeAll.mono le₂ (LikeAll.dropLast args)) others)

theorem uniform_functionCall : functionCall.Uniform := by
  intro o ρ site function function' args args' known argsKnown
  refine (site.likeProgram_function 0 known).bind fun σ le f f' function => ?_
  exact site.likeProgram_call function (argsKnown.mono le)

end Control

section Assignment

theorem likeProgram_assignEvaluated (index : Nat) (last : ρ.Like e e') (known : ρ.LikeAll es es') :
    ρ.LikeProgram o Like (assignEvaluated site index e es) (assignEvaluated site index e' es') := by
  induction index, e, es using assignEvaluated.induct generalizing ρ e' es' with
  | case1 index last target e rest ih =>
    obtain _ | ⟨targetKnown, _ | ⟨known, restKnown⟩⟩ := known
    rw [assignEvaluated, assignEvaluated]
    refine .check (site.symbol_eq index targetKnown) fun name => ?_
    refine (site.likeProgram_eval known).bind fun σ le v v' value => ?_
    refine (LikeProgram.ask (.assign site.scope name value)).bind fun τ le' _ _ _ => ?_
    exact ih v (value.mono le') (LikeAll.mono (le.trans le') restKnown)
  | case2 args index last' short =>
    rcases known with _ | ⟨_, _ | _⟩
    · exact .done last
    · exact .done last
    · exact absurd rfl (short _ _ _)

theorem likeProgram_assignGiven (index : Nat) (last : ρ.Like e e') (known : ρ.LikeAll es es') :
    ρ.LikeProgram o Like (assignGiven site index e es) (assignGiven site index e' es') := by
  induction index, e, es using assignGiven.induct generalizing ρ e' es' with
  | case1 index last target v rest ih =>
    obtain _ | ⟨targetKnown, _ | ⟨known, restKnown⟩⟩ := known
    rw [assignGiven, assignGiven]
    refine .check (site.symbol_eq index targetKnown) fun name => ?_
    refine (LikeProgram.ask (.assign site.scope name known)).bind fun τ le _ _ _ => ?_
    exact ih (known.mono le) (LikeAll.mono le restKnown)
  | case2 args index last' short =>
    rcases known with _ | ⟨_, _ | _⟩
    · exact .done last
    · exact .done last
    · exact absurd rfl (short _ _ _)

theorem uniform_inPairs {run : Site → List Expr → Program Expr}
    (h : ∀ (o : Outset) (ρ : Likeness) site args args', ρ.LikeAll args args' →
      ρ.LikeProgram o Like (run site args) (run site args')) : (inPairs run).Uniform := by
  intro o ρ site args args' known
  dsimp only
  rw [known.length_eq]
  split
  · exact h o ρ site args args' known
  · exact .fail _

theorem uniform_globalVariable : globalVariable.Uniform := by
  intro o ρ site target target' initial? initial?' known initialKnown
  refine .check (site.symbol_eq 0 known) fun name => ?_
  cases initialKnown with
  | none => exact .pure known
  | some initialKnown =>
    refine (LikeProgram.ask (.valueOf Store.root name)).bind fun σ le v? v?' held => ?_
    cases held with
    | some _ => exact .pure (known.mono le)
    | none =>
      refine (site.likeProgram_eval (initialKnown.mono le)).bind fun τ le' v v' value => ?_
      refine (LikeProgram.ask (.defineGlobal name value)).bind fun υ le'' _ _ _ => ?_
      exact .pure (known.mono (le.trans (le'.trans le'')))

/-- A form that evaluates an expression, stores the value under a global name and
returns the name. -/
theorem uniform_globalDefinition (run : Site → Expr → Expr → Program Expr)
    (store : String → Expr → Effect)
    (stores : ∀ (o : Outset) (ρ : Likeness) name v v', ρ.Like v v' →
      ρ.LikeEffect o (store name v) (store name v') fun _ _ _ => True)
    (text : ∀ site target e, run site target e = do
      let name ← site.symbol 0 target
      let v ← site.eval e
      let _ ← ask (store name v)
      return target) : (Body.binary run).Uniform := by
  intro o ρ site target target' e e' known initialKnown
  rw [text, text]
  refine .check (site.symbol_eq 0 known) fun name => ?_
  refine (site.likeProgram_eval initialKnown).bind fun σ le v v' value => ?_
  refine (LikeProgram.ask (stores o σ name v v' value)).bind fun τ le' _ _ _ => ?_
  exact .pure (known.mono (le.trans le'))

theorem uniform_globalParameter : globalParameter.Uniform :=
  uniform_globalDefinition _ .defineGlobal (fun _ _ name _ _ => .defineGlobal name) fun _ _ _ => rfl

theorem uniform_globalConstant : globalConstant.Uniform :=
  uniform_globalDefinition _ .defineConstant (fun _ _ name _ _ => .defineConstant name)
    fun _ _ _ => rfl

end Assignment

section Inspection

theorem uniform_functionOfSymbol : functionOfSymbol.Uniform := by
  intro o ρ site e e' known
  refine .check (site.symbol_eq 0 known) fun name => ?_
  refine (LikeProgram.ask (.functionOf site.scope name)).bind fun σ _ f? f?' found => ?_
  cases found with
  | none => exact .fail _
  | some found => exact .pure found

/-- What is counted during an evaluation does not depend on what was counted before. -/
theorem uniform_countedEvaluation : countedEvaluation.Uniform := by
  intro o ρ site e e' known
  refine (LikeProgram.ask .counters).bind fun ρ₁ le₁ before before' earlier => ?_
  refine (site.likeProgram_eval (known.mono le₁)).bind fun ρ₂ le₂ v v' value => ?_
  refine (LikeProgram.ask .counters).bind fun ρ₃ le₃ after after' later => ?_
  rw [earlier.since_eq later]
  refine (LikeProgram.ask (.place _)).bind fun ρ₄ le₄ counted counted' placed => ?_
  exact likeProgram_list (.cons (value.mono (le₃.trans le₄)) (.cons placed .nil))

theorem uniform_tracedEvaluation : tracedEvaluation.Uniform :=
  fun _ _ site _ _ known => .traced site.scope known fun _ _ _ _ value => .done value

theorem uniform_timedEvaluation : timedEvaluation.Uniform := by
  intro o ρ site e e' known
  refine (site.likeProgram_eval known).bind fun σ _ v v' value => ?_
  refine (LikeProgram.ask .elapsed).bind fun τ le' milliseconds milliseconds' same => ?_
  subst same
  exact likeProgram_list (.cons (value.mono le') (.cons (.float _) .nil))

theorem uniform_printed : printed.Uniform := by
  intro o ρ site args args' known
  dsimp only
  rw [known.map_text_eq]
  refine (LikeProgram.ask (.print _)).bind fun σ le _ _ _ => ?_
  have last := LikeAll.getLast? (LikeAll.mono le known)
  generalize args.getLast? = last?, args'.getLast? = last?' at last
  cases last with
  | none => exact .pure .nil
  | some last => exact .pure last

theorem uniform_loaded : loaded.Uniform := by
  intro o ρ site e e' known
  refine .check (site.string_eq 0 known) fun path => ?_
  refine (LikeProgram.ask (.file path)).bind fun σ _ text text' same => ?_
  subst same
  exact likeProgram_evalForms _ _ _ .nil

end Inspection

end Lisp.Library
