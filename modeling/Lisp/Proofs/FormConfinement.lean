import Lisp.Proofs.SiteConfinement

/-!
# The forms of the library are confined

The forms that control evaluation, bind names, assign, define and inspect. They reach
scopes in no other way than through the scope of the caller, the root, the scopes that
they open and the values that they are handed.
-/

namespace Lisp.Library

open Program

variable {territory : Set ScopeId} {site : Site}

section Control

theorem confined_quoted : quoted.Confined := .unary fun _ _ _ _ known => known

theorem confined_functionOfForm : functionOf.Confined := by
  refine .unary fun site territory e within known => ?_
  refine .ite_bind (Site.confined_eval within known) (confined_pure.mpr known)
    fun larger grown v value => ?_
  refine (Site.confined_function (within.mono grown) 0 value).bind fun largest more f function => ?_
  split
  · rename_i ps body code
    have closure : (Code.closure ps body site.scope).captured ⊆ largest := by
      rw [code] at function
      intro scope inside
      rcases inside with here | inside
      · exact Option.some.inj here ▸ more (grown within.scope)
      · exact function (.inr inside)
    exact (confined_newFunction closure).bind fun _ _ f made => by simpa using made
  · simpa using function

theorem confined_conditional : conditional.Confined := by
  refine .twoOrThree fun site territory test yes no? within testKnown yesKnown noKnown => ?_
  refine (Site.confined_eval within testKnown).bind fun larger grown v _ => ?_
  split
  · exact Site.confined_eval (within.mono grown) (yesKnown.trans grown)
  · cases no? with
    | some no => exact Site.confined_eval (within.mono grown) ((noKnown no rfl).trans grown)
    | none => simp

theorem confined_conjunctionFrom (within : site.Within territory) {last : Expr} {es : List Expr}
    (lastKnown : last.captured ⊆ territory) (known : capturedAll es ⊆ territory) :
    (conjunctionFrom site last es).Confined territory Value := by
  induction es generalizing last territory with
  | nil => exact lastKnown
  | cons e rest ih =>
    rw [capturedAll_cons, Set.union_subset_iff] at known
    refine (Site.confined_eval within known.1).bind fun larger grown v value => ?_
    split
    · simp
    · exact ih (within.mono grown) value (known.2.trans grown)

theorem confined_disjunctionFrom (within : site.Within territory) {es : List Expr}
    (known : capturedAll es ⊆ territory) : (disjunctionFrom site es).Confined territory Value := by
  induction es generalizing territory with
  | nil => simp [disjunctionFrom]
  | cons e rest ih =>
    rw [capturedAll_cons, Set.union_subset_iff] at known
    refine (Site.confined_eval within known.1).bind fun larger grown v value => ?_
    split
    · exact value
    · exact ih (within.mono grown) (known.2.trans grown)

theorem binding_eq_ok {b : Expr} {name : String} {initial? : Option Expr}
    (h : binding site b = .ok (name, initial?)) (e : Expr) (initial : initial? = some e) :
    e.captured ⊆ b.captured := by
  subst initial
  unfold binding at h
  split at h
  · cases h
  · cases h
  · split at h
    · cases h
      simp
    · cases h
  · cases h

/-- A binding that is well formed speaks of what its expression speaks of. -/
theorem confined_binding {b : Expr} (known : b.captured ⊆ territory) :
    (liftM (binding site b) : Program (String × Option Expr)).Confined territory fun larger p =>
      ∀ e, p.2 = some e → e.captured ⊆ larger :=
  .lift fun _ ok e initial => (binding_eq_ok ok e initial).trans known

theorem confined_initialValue {scope : ScopeId} {initial? : Option Expr} (there : scope ∈ territory)
    (known : ∀ e, initial? = some e → e.captured ⊆ territory) :
    (initialValue scope initial?).Confined territory Value := by
  cases initial? with
  | some e => exact .evalIn there (known e rfl)
  | none => simp [initialValue]

theorem confined_initialValues (within : site.Within territory) {bs : List Expr}
    (known : capturedAll bs ⊆ territory) :
    (initialValues site bs).Confined territory
      fun larger values => capturedAll (values.map Prod.snd) ⊆ larger := by
  induction bs generalizing territory with
  | nil => simp [initialValues]
  | cons b rest ih =>
    rw [capturedAll_cons, Set.union_subset_iff] at known
    refine (confined_binding known.1).bind fun larger grown (name, initial?) initial => ?_
    refine (confined_initialValue (grown within.scope) initial).bind fun larger' more v value => ?_
    have rest := ih ((within.mono grown).mono more) ((known.2.trans grown).trans more)
    refine rest.bind fun largest most values valuesKnown => ?_
    have first : v.captured ⊆ largest := value.trans most
    simpa using And.intro first valuesKnown

theorem confined_letParallel : letParallelBody.Confined := by
  refine .atLeastOne fun site territory bindings body within known bodyKnown => ?_
  refine (Site.confined_list site 0 known).bind fun l₁ g₁ bs bsKnown => ?_
  refine (confined_initialValues (within.mono g₁) bsKnown).bind fun l₂ g₂ values valuesKnown => ?_
  have outer := (within.mono g₁).mono g₂
  refine (confined_enter outer.scope valuesKnown).bind fun l₃ g₃ inner there => ?_
  exact confined_evalBody there (((bodyKnown.trans g₁).trans g₂).trans g₃)

theorem confined_nestedScope {scope : ScopeId} (there : scope ∈ territory) {bs : List Expr}
    (known : capturedAll bs ⊆ territory) :
    (nestedScope site scope bs).Confined territory fun larger inner => inner ∈ larger := by
  induction bs generalizing scope territory with
  | nil => exact confined_enter there (by simp)
  | cons b rest ih =>
    rw [capturedAll_cons, Set.union_subset_iff] at known
    refine (confined_binding known.1).bind fun l₁ g₁ (name, initial?) initial => ?_
    refine (confined_initialValue (g₁ there) initial).bind fun l₂ g₂ v value => ?_
    refine (confined_enter (g₂ (g₁ there)) (by simpa using value)).bind fun l₃ g₃ inner inside => ?_
    exact ih inside (((known.2.trans g₁).trans g₂).trans g₃)

theorem confined_letSequential : letSequentialBody.Confined := by
  refine .atLeastOne fun site territory bindings body within known bodyKnown => ?_
  refine (Site.confined_list site 0 known).bind fun l₁ g₁ bs bsKnown => ?_
  refine (confined_nestedScope (g₁ within.scope) bsKnown).bind fun l₂ g₂ inner there => ?_
  exact confined_evalBody there ((bodyKnown.trans g₁).trans g₂)

theorem confined_functionDefinition : functionDefinition.Confined := by
  refine .atLeastTwo fun site territory nameExpr parameterList body _ nameKnown _ bodyKnown => ?_
  refine (Confined.check _).bind fun l₁ g₁ name _ => ?_
  refine (Confined.check _).bind fun l₂ g₂ ps _ => ?_
  have code : (Code.named name ps body).captured ⊆ l₂ := by
    rintro scope (here | inside)
    · cases here
    · exact g₂ (g₁ (bodyKnown inside))
  refine (confined_newFunction code).bind fun l₃ g₃ f made => ?_
  have defined : (defineFunction name (.function f)).Confined l₃ fun _ _ => True :=
    .request (by simpa [Effect.Within] using made)
  exact defined.bind fun l₄ g₄ _ _ => (((nameKnown.trans g₁).trans g₂).trans g₃).trans g₄

theorem confined_abstraction : abstraction.Confined := by
  refine .atLeastOne fun site territory parameterList body _ _ bodyKnown => ?_
  refine (Confined.check _).bind fun l₁ g₁ ps _ => ?_
  have code : (Code.lambda ps body).captured ⊆ l₁ := by
    rintro scope (here | inside)
    · cases here
    · exact g₁ (bodyKnown inside)
  exact (confined_newFunction code).bind fun _ _ f made => by simpa using made

theorem confined_clausesFrom (within : site.Within territory) {clauses : List Expr}
    (known : capturedAll clauses ⊆ territory) :
    (clausesFrom site clauses).Confined territory Value := by
  induction clauses generalizing territory with
  | nil => simp [clausesFrom]
  | cons clause rest ih =>
    rw [capturedAll_cons, Set.union_subset_iff] at known
    unfold clausesFrom
    split
    · rename_i test body proper
      rw [← Sexp.capturedAll_properItems? proper, capturedAll_cons, Set.union_subset_iff] at known
      refine (Site.confined_eval within known.1.1).bind fun larger grown v value => ?_
      split
      · split
        · exact value
        · exact confined_evalBody (grown within.scope) (known.1.2.trans grown)
      · exact ih (within.mono grown) (known.2.trans grown)
    · trivial

theorem confined_guarded (expected : Bool) : (guarded expected).Confined := by
  refine .atLeastOne fun site territory test body within known bodyKnown => ?_
  refine (Site.confined_eval within known).bind fun larger grown v _ => ?_
  split
  · exact confined_evalBody (grown within.scope) (bodyKnown.trans grown)
  · simp

theorem confined_application : application.Confined := by
  refine .atLeastTwo fun site territory function first rest within known firstKnown restKnown => ?_
  have args : capturedAll (first :: rest) ⊆ territory := by
    rw [capturedAll_cons, Set.union_subset_iff]
    exact ⟨firstKnown, restKnown⟩
  refine (Site.confined_function within 0 known).bind fun l₁ g₁ f code => ?_
  have last := (captured_subset_capturedAll (List.getLast_mem (List.cons_ne_nil first rest))).trans
    (args.trans g₁)
  refine (Site.confined_list site _ last).bind fun l₂ g₂ spread spreadKnown => ?_
  have init := (capturedAll_mono (List.dropLast_subset (first :: rest))).trans
    ((args.trans g₁).trans g₂)
  refine Site.confined_call ((within.mono g₁).mono g₂) (code.trans g₂) ?_
  rw [capturedAll_append, Set.union_subset_iff]
  exact ⟨init, spreadKnown⟩

theorem confined_functionCall : functionCall.Confined := by
  refine .atLeastOne fun site territory function args within known argsKnown => ?_
  refine (Site.confined_function within 0 known).bind fun larger grown f code => ?_
  exact Site.confined_call (within.mono grown) code (argsKnown.trans grown)

end Control

section Assignment

theorem confined_assignEvaluated (within : site.Within territory) {index : Nat} {last : Expr}
    {args : List Expr} (lastKnown : last.captured ⊆ territory)
    (known : capturedAll args ⊆ territory) :
    (assignEvaluated site index last args).Confined territory Value := by
  induction index, last, args using assignEvaluated.induct generalizing territory with
  | case1 index last target e rest ih =>
    simp only [capturedAll_cons, Set.union_subset_iff] at known
    rw [assignEvaluated]
    refine (Confined.check _).bind fun l₁ g₁ name _ => ?_
    refine (Site.confined_eval (within.mono g₁) (known.2.1.trans g₁)).bind fun l₂ g₂ v value => ?_
    have here := (within.mono g₁).mono g₂
    refine (confined_assign here.scope value).bind fun l₃ g₃ _ _ => ?_
    exact ih v (here.mono g₃) (value.trans g₃) (((known.2.2.trans g₁).trans g₂).trans g₃)
  | case2 args index last short =>
    rw [assignEvaluated]
    · exact lastKnown
    · exact short

theorem confined_assignGiven (within : site.Within territory) {index : Nat} {last : Expr}
    {args : List Expr} (lastKnown : last.captured ⊆ territory)
    (known : capturedAll args ⊆ territory) :
    (assignGiven site index last args).Confined territory Value := by
  induction index, last, args using assignGiven.induct generalizing territory with
  | case1 index last target v rest ih =>
    simp only [capturedAll_cons, Set.union_subset_iff] at known
    rw [assignGiven]
    refine (Confined.check _).bind fun l₁ g₁ name _ => ?_
    refine (confined_assign (g₁ within.scope) (known.2.1.trans g₁)).bind fun l₂ g₂ _ _ => ?_
    exact ih ((within.mono g₁).mono g₂) ((known.2.1.trans g₁).trans g₂)
      ((known.2.2.trans g₁).trans g₂)
  | case2 args index last short =>
    rw [assignGiven]
    · exact lastKnown
    · exact short

theorem confined_inPairs {run : Site → List Expr → Program Expr}
    (h : ∀ site territory args, site.Within territory → capturedAll args ⊆ territory →
      (run site args).Confined territory Value) : (inPairs run).Confined := by
  refine .variadic fun site territory args within known => ?_
  split
  · exact h site territory args within known
  · trivial

theorem confined_globalVariable : globalVariable.Confined := by
  refine .oneOrTwo fun site territory target initial? within known initialKnown => ?_
  refine (Confined.check _).bind fun l₁ g₁ name _ => ?_
  cases initial? with
  | none => exact known.trans g₁
  | some e =>
    refine (confined_valueOf (g₁ within.root)).bind fun l₂ g₂ v? _ => ?_
    have grown := g₁.trans g₂
    split
    · exact known.trans grown
    · refine (Site.confined_eval (within.mono grown) ((initialKnown e rfl).trans grown)).bind
        fun l₃ g₃ v value => ?_
      exact (Confined.request (x := .defineGlobal name v) value).bind fun l₄ g₄ _ _ =>
        (known.trans grown).trans (g₃.trans g₄)

/-- A form that evaluates an expression, stores the value under a global name and
returns the name. -/
theorem confined_globalDefinition (store : String → Expr → Effect)
    (admits : ∀ territory name v, Value territory v → (store name v).Within territory)
    (run : Site → Expr → Expr → Program Expr)
    (text : ∀ site target e, run site target e = do
      let name ← site.symbol 0 target
      let v ← site.eval e
      let _ ← ask (store name v)
      return target) : (Body.binary run).Confined := by
  refine .binary fun site territory target e within known initialKnown => ?_
  rw [text]
  refine (Confined.check _).bind fun l₁ g₁ name _ => ?_
  refine (Site.confined_eval (within.mono g₁) (initialKnown.trans g₁)).bind fun l₂ g₂ v value => ?_
  exact (Confined.request (admits l₂ name v value)).bind fun l₃ g₃ _ _ =>
    ((known.trans g₁).trans g₂).trans g₃

theorem confined_globalParameter : globalParameter.Confined :=
  confined_globalDefinition .defineGlobal (fun _ _ _ known => known) _ fun _ _ _ => rfl

theorem confined_globalConstant : globalConstant.Confined :=
  confined_globalDefinition .defineConstant (fun _ _ _ known => known) _ fun _ _ _ => rfl

end Assignment

section Inspection

theorem confined_functionOfSymbol : functionOfSymbol.Confined := by
  refine .unary fun site territory e within _ => ?_
  refine (Confined.check _).bind fun l₁ g₁ name _ => ?_
  refine (confined_functionOf (g₁ within.scope)).bind fun l₂ g₂ f? answer => ?_
  cases f? with
  | some f => exact answer f rfl
  | none => trivial

theorem confined_countedEvaluation : countedEvaluation.Confined := by
  refine .unary fun site territory e within known => ?_
  refine (Confined.request (x := .counters) trivial).bind fun l₁ g₁ before _ => ?_
  refine (Site.confined_eval (within.mono g₁) (known.trans g₁)).bind fun l₂ g₂ v value => ?_
  refine (Confined.request (x := .counters) trivial).bind fun l₃ g₃ after _ => ?_
  refine (confined_place _).bind fun l₄ g₄ counted countedKnown => ?_
  exact confined_list (by simpa using And.intro (value.trans (g₃.trans g₄)) countedKnown)

theorem confined_tracedEvaluation : tracedEvaluation.Confined :=
  .unary fun _ _ _ within known => ⟨⟨within.scope, known⟩, fun _ _ _ value => value⟩

theorem confined_timedEvaluation : timedEvaluation.Confined := by
  refine .unary fun site territory e within known => ?_
  refine (Site.confined_eval within known).bind fun l₁ g₁ v value => ?_
  have clock : elapsed.Confined l₁ fun _ _ => True := .request trivial
  refine clock.bind fun l₂ g₂ milliseconds _ => ?_
  exact confined_list (by simpa using value.trans g₂)

theorem confined_printed : printed.Confined := by
  refine .variadic fun site territory args _ known => ?_
  refine (Confined.request (x := .print _) trivial).bind fun l₁ g₁ _ _ => ?_
  cases last : args.getLast? with
  | none => simp
  | some v =>
    have value := captured_subset_capturedAll (List.mem_of_getLast? last)
    simpa using value.trans (known.trans g₁)

theorem confined_loaded : loaded.Confined := by
  refine .unary fun site territory e within _ => ?_
  refine (Confined.check _).bind fun l₁ g₁ path _ => ?_
  exact (Confined.request (x := .file path) trivial).bind fun l₂ g₂ text _ =>
    confined_evalForms (g₂ (g₁ within.root)) (by simp)

end Inspection

end Lisp.Library
