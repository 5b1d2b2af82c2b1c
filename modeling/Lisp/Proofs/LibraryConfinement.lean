import Lisp.Proofs.FormConfinement
import Lisp.Proofs.Sorting

/-!
# The builtin library is confined

The functions on numbers, on pairs of values and on lists are confined as the forms
are. So is every builtin, and with it every function of the program.
-/

namespace Lisp

namespace Library

open Program

variable {territory : Set ScopeId} {site : Site}

section Numeric

theorem confined_total (op : Number → Number → Except ArithmeticFault Number) (neutral : Int64) :
    (total op neutral).Confined :=
  .variadic fun _ _ _ _ _ => (Confined.check _).bind fun _ _ n _ => by
    simp [Number.captured_toExpr]

theorem confined_reduction (op : Number → Number → Except ArithmeticFault Number)
    (neutral : Int64) : (reduction op neutral).Confined := by
  refine .atLeastOne fun site territory first rest _ _ _ => ?_
  refine (Confined.check _).bind fun _ _ n _ => ?_
  split
  · exact (Confined.check _).bind fun _ _ n _ => by simp [Number.captured_toExpr]
  · exact (Confined.check _).bind fun _ _ n _ => by simp [Number.captured_toExpr]

theorem confined_stepBy (op : Number → Number → Except ArithmeticFault Number) :
    (stepBy op).Confined :=
  .unary fun _ _ _ _ _ => (Confined.check _).bind fun _ _ _ _ =>
    (Confined.check _).bind fun _ _ n _ => by simp [Number.captured_toExpr]

theorem confined_modulus : modulus.Confined :=
  .binary fun _ _ _ _ _ _ _ => (Confined.check _).bind fun _ _ _ _ =>
    (Confined.check _).bind fun _ _ _ _ =>
      (Confined.check _).bind fun _ _ n _ => by simp [Number.captured_toExpr]

end Numeric

section Relation

theorem confined_comparison (holds : Site → Expr → Expr → Except Error Bool) :
    (comparison holds).Confined :=
  .atLeastOne fun _ _ _ _ _ _ _ => (Confined.check _).bind fun _ _ _ _ => by simp

theorem confined_predicate (holds : Expr → Bool) : (predicate holds).Confined :=
  .unary fun _ _ _ _ _ => by simp

theorem confined_sameObject : sameObject.Confined := .binary fun _ _ _ _ _ _ _ => by simp

theorem confined_hasValue : hasValue.Confined :=
  .unary fun _ _ _ within _ => (Confined.check _).bind fun _ grown _ _ =>
    (confined_valueOf (grown within.scope)).bind fun _ _ _ _ => by simp

theorem confined_hasFunction : hasFunction.Confined :=
  .unary fun _ _ _ within _ => (Confined.check _).bind fun _ grown _ _ =>
    (confined_functionOf (grown within.scope)).bind fun _ _ _ _ => by simp

theorem confined_constant : constant.Confined := by
  refine .unary fun site territory e within _ => ?_
  cases e with
  | symbol name =>
    have asked : (isConstant site.scope name).Confined territory fun _ _ => True :=
      .request within.scope
    exact asked.bind fun _ _ _ _ => by simp
  | _ => simp

end Relation

section Sequence

theorem element_eq_ok {index : Nat} {e v : Expr} (h : element site index e = .ok v) :
    v.captured ⊆ e.captured := by
  unfold element at h
  split at h
  · cases h
    exact Sexp.captured_nthItem index e
  · cases h

theorem confined_elementAt (index : Nat) : (elementAt index).Confined := by
  refine .unary fun site territory e _ known => ?_
  exact .lift fun v ok => (element_eq_ok ok).trans known

theorem confined_restOf : restOf.Confined := by
  refine .unary fun site territory e _ known => ?_
  cases e with
  | pair id mark car cdr =>
    rw [Sexp.captured_pair, Set.union_subset_iff] at known
    exact known.2
  | _ => dsimp only; split <;> simp [Program.Confined]

theorem confined_lastPair : lastPair.Confined := by
  refine .unary fun site territory e _ known => ?_
  split
  · exact (Sexp.captured_lastPair e).trans known
  · trivial

theorem exists_ok_of_bind {α β : Type} {r : Except Error α} {f : α → Except Error β} {b : β}
    (h : r >>= f = .ok b) : ∃ a, r = .ok a ∧ f a = .ok b := by
  cases r with
  | error e => cases h
  | ok a => exact ⟨a, rfl, h⟩

theorem concatenated_eq_ok {index : Nat} {args es : List Expr}
    (h : concatenated site index args = .ok es) : capturedAll es ⊆ capturedAll args := by
  induction args generalizing index es with
  | nil =>
    cases h
    exact subset_rfl
  | cons e rest ih =>
    obtain ⟨first, items, h⟩ := exists_ok_of_bind h
    obtain ⟨more, others, h⟩ := exists_ok_of_bind h
    cases h
    rw [capturedAll_append, capturedAll_cons, Sexp.capturedAll_properItems? (Site.list_eq_ok items)]
    exact Set.union_subset_union_right _ (ih others)

theorem confined_appended : appended.Confined := by
  refine .variadic fun site territory args _ known => ?_
  cases last : args.getLast? with
  | none => simp
  | some tail =>
    have tailKnown := (captured_subset_capturedAll (List.mem_of_getLast? last)).trans known
    have front : (liftM (concatenated site 0 args.dropLast) : Program (List Expr)).Confined
        territory fun larger es => capturedAll es ⊆ larger :=
      .lift fun es ok => (concatenated_eq_ok ok).trans
        ((capturedAll_mono (List.dropLast_subset args)).trans known)
    exact front.bind fun _ grown es esKnown => confined_listWithTail esKnown (tailKnown.trans grown)

theorem confined_reversed : reversed.Confined := by
  refine .unary fun site territory e _ known => ?_
  refine (Site.confined_list site 0 known).bind fun _ _ items itemsKnown => ?_
  exact confined_list ((capturedAll_mono fun _ => List.mem_reverse.mp).trans itemsKnown)

theorem confined_size : size.Confined := by
  refine .unary fun site territory e _ _ => ?_
  cases e with
  | string text => simp
  | _ => exact (Confined.check _).bind fun _ _ _ _ => by simp

theorem confined_memberOf : memberOf.Confined := by
  refine .binary fun site territory v e _ _ known => ?_
  split
  · exact (captured_tailFrom v e).trans known
  · trivial

theorem confined_indexed : indexed.Confined := by
  refine .binary fun site territory i e _ _ known => ?_
  refine (Confined.check _).bind fun l₁ g₁ n _ => ?_
  split
  · trivial
  · exact .lift fun v ok => (element_eq_ok ok).trans (known.trans g₁)

/-- What a program returns from every territory that a given one grows to. -/
def confinedFrom (territory : Set ScopeId) : Postcondition Program where
  holds post p := ∀ larger, territory ⊆ larger → p.Confined larger fun _ => post
  pure h _ _ := h
  bind first later larger grown := (first larger grown).bind fun largest more b post =>
    later b post largest (grown.trans more)
  imp h le larger grown := (h larger grown).imp fun _ _ b post => le b post

/-- What a computation that may only fail returns. -/
def returned : Postcondition (Except Error) where
  holds post r := ∀ a, r = .ok a → post a
  pure h a ok := by
    cases ok
    exact h
  bind {_ _ _ _ run next} first later a ok := by
    cases run with
    | error e => cases ok
    | ok b => exact later b (first b rfl) a ok
  imp h le a ok := le a (h a ok)

theorem confined_sorted : sorted.Confined := by
  refine .oneOrTwo fun site territory e predicate? within known predicateKnown => ?_
  refine (Site.confined_list site 0 known).bind fun l₁ g₁ items itemsKnown => ?_
  cases predicate? with
  | none =>
    have arranged : (Program.ofExcept (mergeSort (naturallyLess site) items)).Confined l₁
        fun larger result => capturedAll result ⊆ larger := by
      refine .ofExcept fun result ok => ?_
      have perm := mergeSort_perm returned (fun _ _ _ _ _ _ => trivial) result ok
      exact (capturedAll_mono perm.subset).trans itemsKnown
    exact arranged.bind fun _ _ result resultKnown => confined_list resultKnown
  | some f =>
    have here := within.mono g₁
    have named := (predicateKnown f rfl).trans g₁
    refine (Site.confined_function here 1 named).bind fun l₂ g₂ f code => ?_
    have compared : ∀ a ∈ items, ∀ b ∈ items,
        (confinedFrom l₂).holds (fun _ => True) (lessBy site f a b) := by
      intro a ha b hb larger grown
      have argKnown : ∀ x ∈ items, x.captured ⊆ larger := fun x hx =>
        ((captured_subset_capturedAll hx).trans itemsKnown).trans (g₂.trans grown)
      have argsKnown : capturedAll [a, b] ⊆ larger := by
        simpa using And.intro (argKnown a ha) (argKnown b hb)
      have called := Site.confined_call ((here.mono g₂).mono grown) (code.trans grown) argsKnown
      exact called.bind fun _ _ _ _ => trivial
    have arranged := mergeSort_perm (confinedFrom l₂) compared l₂ subset_rfl
    refine arranged.bind fun l₃ g₃ result perm => ?_
    exact confined_list ((capturedAll_mono perm.subset).trans (itemsKnown.trans (g₂.trans g₃)))

end Sequence

end Library

/-- Every builtin is confined. -/
theorem Builtin.confined_body (op : Builtin) : op.body.Confined := by
  cases op with
  | quote => exact Library.confined_quoted
  | function => exact Library.confined_functionOfForm
  | ifElse => exact Library.confined_conditional
  | and => exact .variadic fun _ _ _ within known =>
      Library.confined_conjunctionFrom within (by simp) known
  | or => exact .variadic fun _ _ _ within known => Library.confined_disjunctionFrom within known
  | progn => exact .variadic fun _ _ _ within known => Program.confined_evalBody within.scope known
  | letParallel => exact Library.confined_letParallel
  | letSequential => exact Library.confined_letSequential
  | setq => exact Library.confined_inPairs fun _ _ _ within known =>
      Library.confined_assignEvaluated within (by simp) known
  | defvar => exact Library.confined_globalVariable
  | defparameter => exact Library.confined_globalParameter
  | defconstant => exact Library.confined_globalConstant
  | defun => exact Library.confined_functionDefinition
  | lambda => exact Library.confined_abstraction
  | cond => exact .variadic fun _ _ _ within known => Library.confined_clausesFrom within known
  | whenTrue => exact Library.confined_guarded true
  | whenFalse => exact Library.confined_guarded false
  | eval => exact .unary fun _ _ _ within known => Site.confined_eval within known
  | apply => exact Library.confined_application
  | funcall => exact Library.confined_functionCall
  | typeOf => exact .unary fun _ _ _ _ _ => by simp
  | symbolFunction => exact Library.confined_functionOfSymbol
  | set => exact Library.confined_inPairs fun _ _ _ within known =>
      Library.confined_assignGiven within (by simp) known
  | debugStats => exact Library.confined_countedEvaluation
  | debugCalls => exact Library.confined_tracedEvaluation
  | elapsedTime => exact Library.confined_timedEvaluation
  | add | multiply => exact Library.confined_total _ _
  | subtract | divide => exact Library.confined_reduction _ _
  | increment | decrement => exact Library.confined_stepBy _
  | modulo => exact Library.confined_modulus
  | equal | different | greater | greaterOrEqual | less | lessOrEqual =>
    exact Library.confined_comparison _
  | eql => exact Library.confined_sameObject
  | boundp => exact Library.confined_hasValue
  | fboundp => exact Library.confined_hasFunction
  | constantp => exact Library.confined_constant
  | list => exact .variadic fun _ _ _ _ known => Program.confined_list known
  | cons => exact .binary fun _ _ _ _ _ first second => Program.confined_cons first second
  | car | cadr | caddr | cadddr => exact Library.confined_elementAt _
  | cdr => exact Library.confined_restOf
  | last => exact Library.confined_lastPair
  | append => exact Library.confined_appended
  | reverse => exact Library.confined_reversed
  | length => exact Library.confined_size
  | member => exact Library.confined_memberOf
  | nth => exact Library.confined_indexed
  | sort => exact Library.confined_sorted
  | print => exact Library.confined_printed
  | load => exact Library.confined_loaded
  | _ => exact Library.confined_predicate _

namespace Function

variable {territory : Set ScopeId}

theorem confined_bodyProgram {name : String} {parameters : List String} {body args : List Expr}
    {outer : ScopeId} (there : outer ∈ territory) (bodyKnown : capturedAll body ⊆ territory)
    (argsKnown : capturedAll args ⊆ territory) :
    (bodyProgram name parameters body args outer).Confined territory Program.Value := by
  unfold bodyProgram
  split
  · trivial
  · have bound : ((parameters.zip args).map Prod.snd) ⊆ args := by
      intro v mem
      obtain ⟨b, inside, rfl⟩ := List.mem_map.mp mem
      exact (List.of_mem_zip inside).2
    have entered := Program.confined_enter there ((capturedAll_mono bound).trans argsKnown)
    exact entered.bind fun _ grown inner inside =>
      Program.confined_evalBody inside (bodyKnown.trans grown)

/-- Every function is confined, be it builtin or of the program, as long as no
functions are registered beside the library. -/
theorem confined_program {w : World} (library : w.registered = #[]) {f : Function}
    {args : List Expr} {scope : ScopeId} (root : Store.root ∈ territory) (there : scope ∈ territory)
    (known : f.code.captured ⊆ territory) (argsKnown : capturedAll args ⊆ territory) :
    (f.program w args scope).Confined territory Program.Value := by
  unfold program
  split
  · rename_i op _
    split
    · rename_i p supplied
      exact op.confined_body ⟨op.name, scope⟩ territory args p ⟨root, there⟩ argsKnown supplied
    · trivial
  · simp [library, Program.Confined]
  · rename_i name parameters body code
    rw [code] at known
    exact confined_bodyProgram there (Set.subset_union_right.trans known) argsKnown
  · rename_i parameters body code
    rw [code] at known
    exact confined_bodyProgram there (Set.subset_union_right.trans known) argsKnown
  · rename_i parameters body captured code
    rw [code] at known
    exact confined_bodyProgram (known (.inl rfl)) (Set.subset_union_right.trans known) argsKnown

end Function

end Lisp
