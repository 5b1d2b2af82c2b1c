import Lisp.Builtin
import Lisp.Library.Table
import Lisp.Proofs.Raising

/-!
# The errors of the builtin library

Each builtin raises errors of its call site only, and a function of the program raises
none but a wrong argument count under its name. In particular neither tells on its own
that calls are nested too deeply.
-/

namespace Lisp

namespace Library

open Program

variable {site : Site} {allowed : Error → Prop}

/-- An argument is checked before anything else is done. -/
theorem raises_check {α : Type} {r : Except Error α} {next : α → Program Expr}
    (check : ExceptRaises allowed r) (later : ∀ a, (next a).Raises allowed) :
    (liftM r >>= next : Program Expr).Raises allowed :=
  Raises.bind check later

/-- A request comes first. -/
theorem raises_ask (x : Effect) {next : x.Answer → Program Expr}
    (later : ∀ a, (next a).Raises allowed) : (ask x >>= next).Raises allowed := later

/-- An expression is evaluated first. -/
theorem raises_evaluated (e : Expr) {next : Expr → Program Expr}
    (later : ∀ v, (next v).Raises allowed) : (site.eval e >>= next).Raises allowed := later

section Control

theorem raises_functionOf : functionOf.Raises := by
  intro site e
  refine .ite_bind (Site.raises_eval e) (trivial : (pure e : Program Expr).Raises _)
    fun target => ?_
  refine (Site.raises_function 0 target).bind fun f => ?_
  split
  · exact fun _ => trivial
  · trivial

theorem raises_conditional : conditional.Raises := by
  intro site test yes no?
  refine raises_evaluated test fun v => ?_
  split
  · exact Site.raises_eval yes
  · cases no? with
    | some no => exact Site.raises_eval no
    | none => trivial

theorem raises_conjunctionFrom (last : Expr) (es : List Expr) :
    (conjunctionFrom site last es).Raises site.Raises := by
  induction es generalizing last with
  | nil => trivial
  | cons e rest ih =>
    refine raises_evaluated e fun v => ?_
    split
    · trivial
    · exact ih v

theorem raises_disjunctionFrom (es : List Expr) :
    (disjunctionFrom site es).Raises site.Raises := by
  induction es with
  | nil => trivial
  | cons e rest ih =>
    refine raises_evaluated e fun v => ?_
    split
    · trivial
    · exact ih

theorem raises_binding (b : Expr) : ExceptRaises site.Raises (binding site b) := by
  unfold binding
  split
  · trivial
  · trivial
  · split
    · trivial
    · exact Site.raises_misuse _ _
  · exact Site.raises_misuse _ _

theorem raises_initialValue (scope : ScopeId) (initial? : Option Expr) :
    (initialValue scope initial?).Raises site.Raises := by
  cases initial? with
  | some e => exact fun _ => trivial
  | none => trivial

theorem raises_initialValues (bs : List Expr) : (initialValues site bs).Raises site.Raises := by
  induction bs with
  | nil => trivial
  | cons b rest ih =>
    refine Raises.bind (raises_binding b) fun (name, initial?) => ?_
    refine (raises_initialValue site.scope initial?).bind fun v => ?_
    exact ih.bind fun _ => trivial

theorem raises_letParallel : letParallelBody.Raises := by
  intro site bindings body
  refine raises_check (Site.raises_list 0 bindings) fun bs => ?_
  refine (raises_initialValues bs).bind fun values => ?_
  exact raises_ask _ fun inner => raises_evalBody inner body

theorem raises_nestedScope (scope : ScopeId) (bs : List Expr) :
    (nestedScope site scope bs).Raises site.Raises := by
  induction bs generalizing scope with
  | nil => exact fun _ => trivial
  | cons b rest ih =>
    refine Raises.bind (raises_binding b) fun (name, initial?) => ?_
    refine (raises_initialValue scope initial?).bind fun v => ?_
    exact fun inner => ih inner

theorem raises_letSequential : letSequentialBody.Raises := by
  intro site bindings body
  refine raises_check (Site.raises_list 0 bindings) fun bs => ?_
  exact (raises_nestedScope site.scope bs).bind fun inner => raises_evalBody inner body

theorem raises_parameterNames (es : List Expr) :
    ExceptRaises site.Raises (parameterNames site es) := by
  induction es with
  | nil => trivial
  | cons e rest ih =>
    cases e with
    | symbol name => exact ExceptRaises.bind ih fun _ => trivial
    | _ => exact Site.raises_misuse _ _

theorem raises_parameters (e : Expr) : ExceptRaises site.Raises (parameters site e) := by
  unfold parameters
  split
  · exact raises_parameterNames _
  · exact Site.raises_misuse _ _

theorem raises_functionDefinition : functionDefinition.Raises := by
  intro site nameExpr parameterList body
  refine raises_check (Site.raises_symbol 0 nameExpr) fun name => ?_
  exact raises_check (raises_parameters parameterList) fun ps => fun _ _ => trivial

theorem raises_abstraction : abstraction.Raises := by
  intro site parameterList body
  exact raises_check (raises_parameters parameterList) fun ps => fun _ => trivial

theorem raises_clausesFrom (clauses : List Expr) :
    (clausesFrom site clauses).Raises site.Raises := by
  induction clauses with
  | nil => trivial
  | cons clause rest ih =>
    unfold clausesFrom
    split
    · refine raises_evaluated _ fun v => ?_
      split
      · split
        · trivial
        · exact raises_evalBody site.scope _
      · exact ih
    · exact Site.raises_misuse _ _

theorem raises_guarded (expected : Bool) : (guarded expected).Raises := by
  intro site test body
  refine raises_evaluated test fun v => ?_
  split
  · exact raises_evalBody site.scope body
  · trivial

theorem raises_application : application.Raises := by
  intro site function first rest
  refine (Site.raises_function 0 function).bind fun f => ?_
  exact raises_check (Site.raises_list _ _) fun spread => Site.raises_call _ _

theorem raises_functionCall : functionCall.Raises := by
  intro site function args
  exact (Site.raises_function 0 function).bind fun f => Site.raises_call f args

end Control

section Assignment

theorem raises_assignEvaluated (index : Nat) (last : Expr) (args : List Expr) :
    (assignEvaluated site index last args).Raises site.Raises := by
  induction index, last, args using assignEvaluated.induct with
  | case1 index last target e rest ih =>
    rw [assignEvaluated]
    refine raises_check (Site.raises_symbol index target) fun name => ?_
    exact raises_evaluated e fun v => raises_ask _ fun _ => ih v
  | case2 args index last short =>
    rw [assignEvaluated]
    · trivial
    · exact short

theorem raises_assignGiven (index : Nat) (last : Expr) (args : List Expr) :
    (assignGiven site index last args).Raises site.Raises := by
  induction index, last, args using assignGiven.induct with
  | case1 index last target v rest ih =>
    rw [assignGiven]
    refine raises_check (Site.raises_symbol index target) fun name => ?_
    exact raises_ask _ fun _ => ih
  | case2 args index last short =>
    rw [assignGiven]
    · trivial
    · exact short

theorem raises_inPairs {run : Site → List Expr → Program Expr}
    (h : ∀ site args, (run site args).Raises site.Raises) : (inPairs run).Raises := by
  intro site args
  dsimp only
  split
  · exact h site args
  · exact Site.raises_misuse _ _

theorem raises_globalVariable : globalVariable.Raises := by
  intro site target initial?
  refine raises_check (Site.raises_symbol 0 target) fun name => ?_
  cases initial? with
  | none => trivial
  | some e =>
    refine raises_ask _ fun v? => ?_
    split
    · trivial
    · exact fun _ _ => trivial

theorem raises_globalParameter : globalParameter.Raises := by
  intro site target e
  exact raises_check (Site.raises_symbol 0 target) fun name => fun _ _ => trivial

theorem raises_globalConstant : globalConstant.Raises := by
  intro site target e
  exact raises_check (Site.raises_symbol 0 target) fun name => fun _ _ => trivial

end Assignment

section Inspection

theorem raises_functionOfSymbol : functionOfSymbol.Raises := by
  intro site e
  refine raises_check (Site.raises_symbol 0 e) fun name => raises_ask _ fun f? => ?_
  cases f? with
  | some f => trivial
  | none => trivial

theorem raises_countedEvaluation : countedEvaluation.Raises := by
  intro site e before v after counted
  exact raises_list _

theorem raises_timedEvaluation : timedEvaluation.Raises := by
  intro site e v milliseconds
  exact raises_list _

theorem raises_loaded : loaded.Raises := by
  intro site e
  refine raises_check (Site.raises_string 0 e) fun path => raises_ask _ fun text => ?_
  exact raises_evalForms fun _ => trivial

end Inspection

section Numeric

theorem raises_number (index : Nat) (e : Expr) :
    ExceptRaises site.Raises (number site index e) := by
  unfold number
  split
  · trivial
  · exact Site.raises_wrongType _ _ _ _

theorem raises_arithmetic (r : Except ArithmeticFault Number) :
    ExceptRaises site.Raises (arithmetic site r) := by
  cases r with
  | ok n => trivial
  | error fault => cases fault <;> trivial

theorem raises_accumulate (op : Number → Number → Except ArithmeticFault Number) (acc : Number)
    (index : Nat) (args : List Expr) :
    ExceptRaises site.Raises (accumulate site op acc index args) := by
  induction args generalizing acc index with
  | nil => trivial
  | cons e rest ih =>
    refine ExceptRaises.bind (raises_number index e) fun n => ?_
    exact ExceptRaises.bind (raises_arithmetic _) fun acc => ih acc (index + 1)

variable (op : Number → Number → Except ArithmeticFault Number) (neutral : Int64)

theorem raises_total : (total op neutral).Raises := by
  intro site args
  exact raises_check (raises_accumulate op _ 0 args) fun _ => trivial

theorem raises_reduction : (reduction op neutral).Raises := by
  intro site first rest
  refine raises_check (raises_number 0 first) fun n => ?_
  split
  · exact raises_check (raises_arithmetic _) fun _ => trivial
  · exact raises_check (raises_accumulate op n 0 rest) fun _ => trivial

theorem raises_stepBy : (stepBy op).Raises := by
  intro site e
  refine raises_check (raises_number 0 e) fun n => ?_
  exact raises_check (raises_arithmetic _) fun _ => trivial

theorem raises_modulus : modulus.Raises := by
  intro site a b
  refine raises_check (raises_number 0 a) fun x => raises_check (raises_number 1 b) fun y => ?_
  exact raises_check (raises_arithmetic _) fun _ => trivial

end Numeric

section Relation

theorem raises_chained {holds : Expr → Expr → Except Error Bool} {args : List Expr}
    (asked : ∀ a b, ExceptRaises allowed (holds a b)) :
    ExceptRaises allowed (chained holds args) := by
  induction args using chained.induct with
  | case1 a b rest ih =>
    rw [chained]
    refine ExceptRaises.bind (asked a b) fun answer => ?_
    cases answer with
    | true => exact ih
    | false => trivial
  | case2 args short =>
    rw [chained]
    · trivial
    · exact short

theorem raises_comparison {holds : Site → Expr → Expr → Except Error Bool}
    (asked : ∀ site a b, ExceptRaises site.Raises (holds site a b)) :
    (comparison holds).Raises := by
  intro site first rest
  exact raises_check (raises_chained (asked site)) fun _ => trivial

theorem raises_order (a b : Expr) : ExceptRaises site.Raises (order site a b) := by
  unfold order
  split
  · trivial
  · exact Site.raises_misuse _ _

theorem raises_ordered (accept : Ordering → Bool) : (ordered accept).Raises :=
  raises_comparison fun _ a b => (raises_order a b).map accept

theorem raises_equality (expected : Bool) : (equality expected).Raises :=
  raises_comparison fun _ _ _ => trivial

theorem raises_hasValue : hasValue.Raises := by
  intro site e
  exact raises_check (Site.raises_symbol 0 e) fun name => fun _ => trivial

theorem raises_hasFunction : hasFunction.Raises := by
  intro site e
  exact raises_check (Site.raises_symbol 0 e) fun name => fun _ => trivial

theorem raises_constant : constant.Raises := by
  intro site e
  cases e with
  | symbol name => exact fun _ => trivial
  | _ => trivial

end Relation

section Sequence

theorem raises_element (index : Nat) (e : Expr) :
    ExceptRaises site.Raises (element site index e) := by
  unfold element
  split
  · trivial
  · exact Site.raises_wrongType _ _ _ _

theorem raises_elementAt (index : Nat) : (elementAt index).Raises := by
  intro site e
  exact raises_element index e

theorem raises_restOf : restOf.Raises := by
  intro site e
  dsimp only
  split
  · trivial
  · split
    · trivial
    · exact Site.raises_wrongType _ _ _ _

theorem raises_lastPair : lastPair.Raises := by
  intro site e
  dsimp only
  split
  · trivial
  · exact Site.raises_wrongType _ _ _ _

theorem raises_concatenated (index : Nat) (args : List Expr) :
    ExceptRaises site.Raises (concatenated site index args) := by
  induction args generalizing index with
  | nil => trivial
  | cons e rest ih =>
    refine ExceptRaises.bind (Site.raises_list index e) fun items => ?_
    exact ExceptRaises.bind (ih (index + 1)) fun _ => trivial

theorem raises_appended : appended.Raises := by
  intro site args
  dsimp only
  split
  · trivial
  · exact raises_check (raises_concatenated 0 args.dropLast) fun _ => raises_listWithTail _ _

theorem raises_reversed : reversed.Raises := by
  intro site e
  exact raises_check (Site.raises_list 0 e) fun _ => raises_list _

theorem raises_size : size.Raises := by
  intro site e
  dsimp only
  split
  · trivial
  · exact raises_check (Site.raises_list 0 _) fun _ => trivial

theorem raises_memberOf : memberOf.Raises := by
  intro site v e
  dsimp only
  split
  · trivial
  · exact Site.raises_wrongType _ _ _ _

theorem raises_indexed : indexed.Raises := by
  intro site i e
  refine raises_check (Site.raises_integer 0 i) fun n => ?_
  split
  · exact Site.raises_misuse _ _
  · exact raises_element _ e

theorem raises_sorted : sorted.Raises := by
  intro site e predicate?
  refine raises_check (Site.raises_list 0 e) fun items => ?_
  cases predicate? with
  | none =>
    have arranged : ExceptEnds site.Raises _ (mergeSort (naturallyLess site) items) :=
      mergeSort_perm (exceptEndings site.Raises) fun a _ b _ => (raises_order a b).map (· == .lt)
    exact arranged.raises.bind fun result => raises_list result
  | some p =>
    refine (Site.raises_function 1 p).bind fun f => ?_
    have arranged : (mergeSort (lessBy site f) items).Ends site.Raises _ :=
      mergeSort_perm (endings site.Raises) fun a _ b _ => fun _ => trivial
    exact arranged.raises.bind fun result => raises_list result

end Sequence

end Library

open Library in
/-- Every builtin raises errors of its call site only. -/
theorem Builtin.raises_body (op : Builtin) : op.body.Raises := by
  cases op with
  | quote => exact fun _ _ => trivial
  | function => exact raises_functionOf
  | ifElse => exact raises_conditional
  | and => exact fun _ args => raises_conjunctionFrom _ args
  | or => exact fun _ args => raises_disjunctionFrom args
  | progn => exact fun site args => Program.raises_evalBody site.scope args
  | letParallel => exact raises_letParallel
  | letSequential => exact raises_letSequential
  | setq => exact raises_inPairs fun _ args => raises_assignEvaluated 0 .nil args
  | defvar => exact raises_globalVariable
  | defparameter => exact raises_globalParameter
  | defconstant => exact raises_globalConstant
  | defun => exact raises_functionDefinition
  | lambda => exact raises_abstraction
  | cond => exact fun _ args => raises_clausesFrom args
  | whenTrue => exact raises_guarded true
  | whenFalse => exact raises_guarded false
  | eval => exact fun _ e => Site.raises_eval e
  | apply => exact raises_application
  | funcall => exact raises_functionCall
  | symbolFunction => exact raises_functionOfSymbol
  | set => exact raises_inPairs fun _ args => raises_assignGiven 0 .nil args
  | debugStats => exact raises_countedEvaluation
  | debugCalls => exact fun _ _ _ => trivial
  | elapsedTime => exact raises_timedEvaluation
  | add | multiply => exact raises_total _ _
  | subtract | divide => exact raises_reduction _ _
  | increment | decrement => exact raises_stepBy _
  | modulo => exact raises_modulus
  | equal | different => exact raises_equality _
  | greater | greaterOrEqual | less | lessOrEqual => exact raises_ordered _
  | eql => exact fun _ _ _ => trivial
  | boundp => exact raises_hasValue
  | fboundp => exact raises_hasFunction
  | constantp => exact raises_constant
  | list => exact fun _ args => Program.raises_list args
  | cons => exact fun _ _ _ _ => trivial
  | car | cadr | caddr | cadddr => exact raises_elementAt _
  | cdr => exact raises_restOf
  | last => exact raises_lastPair
  | append => exact raises_appended
  | reverse => exact raises_reversed
  | length => exact raises_size
  | member => exact raises_memberOf
  | nth => exact raises_indexed
  | sort => exact raises_sorted
  | print => exact fun _ _ _ => trivial
  | load => exact raises_loaded
  | _ => exact fun _ _ => trivial

end Lisp
