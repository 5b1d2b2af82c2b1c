import Lisp.Proofs.UniformForms

/-!
# The builtin library treats identities as opaque

Every builtin does alike with alike arguments. Numbers, the order of values and their types
are the same for alike ones, structural equality and identity are preserved both ways by a
likeness, and what is taken out of alike lists or put into them is alike.
-/

namespace Lisp

namespace Library

open Program Likeness

variable {o : Outset} {ρ : Likeness} {site : Site} {e e' d d' : Expr} {es es' : List Expr}

section Numeric

theorem number_eq (index : Nat) (known : ρ.Like e e') :
    number site index e = number site index e' := by
  rw [number, number, known.ofExpr?_eq, site.wrongType_eq index .number known]

theorem accumulate_eq (op : Number → Number → Except ArithmeticFault Number) (acc : Number)
    (index : Nat) (known : ρ.LikeAll es es') :
    accumulate site op acc index es = accumulate site op acc index es' := by
  induction known generalizing acc index with
  | nil => rfl
  | cons first _ ih => simp only [accumulate, number_eq index first, ih]

/-- A number that comes out the same on both sides. -/
theorem likeProgram_number {r r' : Except Error Number} (same : r = r') :
    ρ.LikeProgram o Like (liftM r >>= fun n => pure n.toExpr : Program Expr)
      (liftM r' >>= fun n => pure n.toExpr) := by
  refine .check same fun n => ?_
  cases n with
  | integer n => exact .pure (.integer n)
  | float x => exact .pure (.float x)

variable (op : Number → Number → Except ArithmeticFault Number) (neutral : Int64)

theorem uniform_total : (total op neutral).Uniform :=
  fun _ _ _ _ _ known => likeProgram_number (accumulate_eq op _ 0 known)

theorem uniform_reduction : (reduction op neutral).Uniform := by
  intro o ρ site first first' rest rest' known restKnown
  refine .check (number_eq 0 known) fun n => ?_
  cases restKnown with
  | nil => exact likeProgram_number rfl
  | cons second others => exact likeProgram_number (accumulate_eq op n 0 (.cons second others))

theorem uniform_stepBy : (stepBy op).Uniform :=
  fun _ _ _ _ _ known => .check (number_eq 0 known) fun _ => likeProgram_number rfl

theorem uniform_modulus : modulus.Uniform :=
  fun _ _ _ _ _ _ _ known known' => .check (number_eq 0 known) fun _ =>
    .check (number_eq 1 known') fun _ => likeProgram_number rfl

end Numeric

section Relation

/-- A comparison of neighbours comes out the same if the comparison of two values does. -/
theorem chained_eq {holds : Expr → Expr → Except Error Bool}
    (same : ∀ a a' b b', ρ.Like a a' → ρ.Like b b' → holds a b = holds a' b')
    (known : ρ.LikeAll es es') : chained holds es = chained holds es' := by
  induction es using chained.induct generalizing es' with
  | case1 a b rest ih =>
    obtain _ | ⟨first, _ | ⟨second, others⟩⟩ := known
    rw [chained, chained, same _ _ _ _ first second, ih (.cons second others)]
  | case2 es short =>
    rcases known with _ | ⟨_, _ | _⟩
    · rfl
    · rfl
    · exact absurd rfl (short _ _ _)

theorem uniform_comparison {holds : Site → Expr → Expr → Except Error Bool}
    (same : ∀ (ρ : Likeness) site a a' b b', ρ.Like a a' → ρ.Like b b' →
      holds site a b = holds site a' b') : (comparison holds).Uniform :=
  fun _ ρ site _ _ _ _ known restKnown =>
    .check (chained_eq (same ρ site) (.cons known restKnown)) fun answer => .pure (.bool answer)

theorem order_eq (known : ρ.Like e e') (known' : ρ.Like d d') :
    order site e d = order site e' d' := by
  rw [order, order, known.compare?_eq known', known.typeName_eq, known'.typeName_eq]

theorem uniform_ordered (accept : Ordering → Bool) : (ordered accept).Uniform :=
  uniform_comparison fun _ _ _ _ _ _ known known' => by rw [order_eq known known']

theorem uniform_equality (expected : Bool) : (equality expected).Uniform :=
  uniform_comparison fun _ _ _ _ _ _ known known' => by rw [known.equal_eq known']

/-- A question about a value alone, if its answer is the same for alike values. -/
theorem uniform_predicate {holds : Expr → Bool}
    (same : ∀ (ρ : Likeness) e e', ρ.Like e e' → holds e = holds e') :
    (predicate holds).Uniform := by
  intro o ρ site e e' known
  dsimp only
  rw [same ρ e e' known]
  exact .done (.bool _)

theorem uniform_typeSymbol : typeSymbol.Uniform := by
  intro o ρ site e e' known
  dsimp only
  rw [known.typeName_eq]
  exact .done (.symbol _)

theorem uniform_sameObject : sameObject.Uniform := by
  intro o ρ site a a' b b' known known'
  dsimp only
  rw [known.eql_eq known']
  exact .done (.bool _)

theorem uniform_hasValue : hasValue.Uniform := by
  intro o ρ site e e' known
  refine .check (site.symbol_eq 0 known) fun name => ?_
  refine (LikeProgram.ask (.valueOf site.scope name)).bind fun σ _ v? v?' held => ?_
  cases held with
  | none => exact .pure (.bool _)
  | some _ => exact .pure (.bool _)

theorem uniform_hasFunction : hasFunction.Uniform := by
  intro o ρ site e e' known
  refine .check (site.symbol_eq 0 known) fun name => ?_
  refine (LikeProgram.ask (.functionOf site.scope name)).bind fun σ _ f? f?' held => ?_
  cases held with
  | none => exact .pure (.bool _)
  | some _ => exact .pure (.bool _)

theorem uniform_constant : constant.Uniform := by
  intro o ρ site e e' known
  cases known with
  | symbol name =>
    refine (LikeProgram.ask (.isConstant site.scope name)).bind fun σ _ answer answer' same => ?_
    subst same
    exact .pure (.bool _)
  | _ => exact .done (.bool _)

end Relation

section Sequence

theorem likeExcept_element (index : Nat) (known : ρ.Like e e') :
    LikeExcept ρ.Like (element site index e) (element site index e') := by
  rw [element, element, known.isList_eq, site.wrongType_eq 0 .list known]
  split
  · exact .ok (known.nthItem index)
  · exact .error _

theorem uniform_elementAt (index : Nat) : (elementAt index).Uniform :=
  fun _ _ _ _ _ known => .lift (likeExcept_element index known)

theorem uniform_restOf : restOf.Uniform := by
  intro o ρ site e e' known
  cases known with
  | pair mark same car cdr => exact .done cdr
  | nil => exact .done .nil
  | bool b =>
    cases b
    · exact .done .nil
    · exact .fail _
  | _ => exact .fail _

theorem uniform_lastPair : lastPair.Uniform := by
  intro o ρ site e e' known
  dsimp only
  rw [known.isList_eq, site.wrongType_eq 0 .list known]
  split
  · exact .done known.lastPair
  · exact .fail _

theorem likeExcept_concatenated (index : Nat) (known : ρ.LikeAll es es') :
    LikeExcept ρ.LikeAll (concatenated site index es) (concatenated site index es') := by
  induction known generalizing index with
  | nil => exact .ok .nil
  | cons first _ ih =>
    refine (site.likeExcept_list index first).bind fun items items' itemsKnown => ?_
    exact (ih (index + 1)).bind fun _ _ others => .ok (List.rel_append itemsKnown others)

theorem uniform_appended : appended.Uniform := by
  intro o ρ site args args' known
  have last := LikeAll.getLast? known
  have initial := LikeAll.dropLast known
  dsimp only
  generalize args.getLast? = last?, args'.getLast? = last?' at last
  cases last with
  | none => exact .done .nil
  | some last =>
    have joined : ρ.LikeProgram o LikeAll (liftM (concatenated site 0 args.dropLast))
        (liftM (concatenated site 0 args'.dropLast)) := .lift (likeExcept_concatenated 0 initial)
    refine joined.bind fun σ le items items' itemsKnown => ?_
    exact likeProgram_listWithTail itemsKnown (last.mono le)

theorem uniform_reversed : reversed.Uniform := by
  intro o ρ site e e' known
  refine (site.likeProgram_list 0 known).bind
    fun σ _ items items' itemsKnown => ?_
  exact likeProgram_list (List.forall₂_reverse_iff.mpr itemsKnown)

theorem likeProgram_count (known : ρ.Like e e') :
    ρ.LikeProgram o Like
      (liftM (site.list 0 e) >>= fun items => pure (.integer (Int64.ofNat items.length)))
      (liftM (site.list 0 e') >>= fun items => pure (.integer (Int64.ofNat items.length))) := by
  refine (site.likeProgram_list 0 known).bind
    fun σ _ items items' itemsKnown => ?_
  rw [itemsKnown.length_eq]
  exact .pure (.integer _)

theorem uniform_size : size.Uniform := by
  intro o ρ site e e' known
  cases known with
  | string text => exact .done (.integer _)
  | pair mark same car cdr => exact likeProgram_count (.pair mark same car cdr)
  | function same code => exact likeProgram_count (.function same code)
  | _ => exact likeProgram_count (by constructor)

theorem uniform_memberOf : memberOf.Uniform := by
  intro o ρ site v v' e e' value known
  dsimp only
  rw [known.isList_eq, site.wrongType_eq 1 .list known]
  split
  · exact .done (value.tailFrom known)
  · exact .fail _

theorem uniform_indexed : indexed.Uniform := by
  intro o ρ site i i' e e' indexKnown known
  refine .check (site.integer_eq 0 indexKnown) fun n => ?_
  split
  · exact .fail _
  · exact .lift (likeExcept_element _ known)

/-- Alike items go before one another alike. -/
theorem compares_naturallyLess (ρ : Likeness) (site : Site) :
    ρ.Compares o (fun a b => ofExcept (naturallyLess site a b))
      (fun a b => ofExcept (naturallyLess site a b)) := by
  intro σ _ a a' b b' first second
  simp only [naturallyLess, order_eq first second]
  cases order site a' b' with
  | error e => exact .fail e
  | ok o => exact .done rfl

theorem compares_lessBy {f f' : Function} (function : ρ.LikeFunction f f') :
    ρ.Compares o (lessBy site f) (lessBy site f') := by
  intro σ le a a' b b' first second
  refine (site.likeProgram_call (function.mono le) (.cons first (.cons second .nil))).bind
    fun τ _ v v' value => ?_
  exact .pure value.isTrue_eq

theorem uniform_sorted : sorted.Uniform := by
  intro o ρ site e e' predicate? predicate?' known predicateKnown
  refine (site.likeProgram_list 0 known).bind
    fun σ le items items' itemsKnown => ?_
  cases predicateKnown with
  | none =>
    have lifted : ∀ items, ofExcept (mergeSort (naturallyLess site) items) =
        mergeSort (fun a b => ofExcept (naturallyLess site a b)) items :=
      map_mergeSort ofExcept (fun _ => rfl) fun run next => by cases run <;> rfl
    dsimp only
    rw [lifted, lifted]
    refine (likeProgram_mergeSort (compares_naturallyLess σ site) itemsKnown).bind
      fun _ _ result result' sorted => ?_
    exact likeProgram_list sorted
  | some predicateKnown =>
    refine (site.likeProgram_function 1 (predicateKnown.mono le)).bind fun τ le' f f' function => ?_
    refine (likeProgram_mergeSort (compares_lessBy function) (LikeAll.mono le' itemsKnown)).bind
      fun _ _ result result' sorted => ?_
    exact likeProgram_list sorted

end Sequence

end Library

open Library Likeness in
/-- Every builtin does alike with alike arguments. -/
theorem Builtin.uniform_body (op : Builtin) : op.body.Uniform := by
  cases op with
  | quote => exact fun _ _ _ _ _ known => .done known
  | function => exact uniform_functionOf
  | ifElse => exact uniform_conditional
  | and => exact fun _ _ _ _ _ known => likeProgram_conjunctionFrom (.bool true) known
  | or => exact fun _ _ _ _ _ known => likeProgram_disjunctionFrom known
  | progn => exact fun _ _ site _ _ known => likeProgram_evalBody site.scope known
  | letParallel => exact uniform_letParallel
  | letSequential => exact uniform_letSequential
  | setq => exact uniform_inPairs fun _ _ _ _ _ known => likeProgram_assignEvaluated 0 .nil known
  | defvar => exact uniform_globalVariable
  | defparameter => exact uniform_globalParameter
  | defconstant => exact uniform_globalConstant
  | defun => exact uniform_functionDefinition
  | lambda => exact uniform_abstraction
  | cond => exact fun _ _ _ _ _ known => likeProgram_clausesFrom known
  | whenTrue => exact uniform_guarded true
  | whenFalse => exact uniform_guarded false
  | eval => exact fun _ _ site _ _ known => site.likeProgram_eval known
  | apply => exact uniform_application
  | funcall => exact uniform_functionCall
  | typeOf => exact uniform_typeSymbol
  | symbolFunction => exact uniform_functionOfSymbol
  | set => exact uniform_inPairs fun _ _ _ _ _ known => likeProgram_assignGiven 0 .nil known
  | debugStats => exact uniform_countedEvaluation
  | debugCalls => exact uniform_tracedEvaluation
  | elapsedTime => exact uniform_timedEvaluation
  | add | multiply => exact uniform_total _ _
  | subtract | divide => exact uniform_reduction _ _
  | increment | decrement => exact uniform_stepBy _
  | modulo => exact uniform_modulus
  | equal | different => exact uniform_equality _
  | greater | greaterOrEqual | less | lessOrEqual => exact uniform_ordered _
  | not => exact uniform_predicate fun _ _ _ known => known.isNil_eq
  | listp => exact uniform_predicate fun _ _ _ known => known.isList_eq
  | consp => exact uniform_predicate fun _ _ _ known => known.isPair_eq
  | atom | numberp | integerp | floatp | stringp | symbolp | functionp | zerop | evenp | oddp =>
    exact uniform_predicate fun _ _ _ known => by cases known <;> rfl
  | eql => exact uniform_sameObject
  | boundp => exact uniform_hasValue
  | fboundp => exact uniform_hasFunction
  | constantp => exact uniform_constant
  | list => exact fun _ _ _ _ _ known => likeProgram_list known
  | cons => exact fun _ _ _ _ _ _ _ first second => .ask (.cons first second)
  | car | cadr | caddr | cadddr => exact uniform_elementAt _
  | cdr => exact uniform_restOf
  | last => exact uniform_lastPair
  | append => exact uniform_appended
  | reverse => exact uniform_reversed
  | length => exact uniform_size
  | member => exact uniform_memberOf
  | nth => exact uniform_indexed
  | sort => exact uniform_sorted
  | print => exact uniform_printed
  | load => exact uniform_loaded

end Lisp
