import Lisp.Proofs.IndexedBodies
import Mathlib.Data.List.Basic

/-!
# No look for an argument is out of range

A builtin that looks for its arguments by position does what its body does with the
arguments that it was supplied with. So no look of it is out of range as long as the
arguments are of a number that the builtin declares, whatever they are, and whatever the
evaluations and calls on the way return.

The proof follows the text of each builtin. A look is replaced by the argument that is
found, a check or a request is the same on both sides, and a loop over positions goes
down the list of the arguments that are left.
-/

namespace Lisp

variable {α β : Type}

/-- The looks of a computation are all in range, and it does what a program does. -/
def InRange (x : Positional α) (p : Program α) : Prop := x.run = .ok <$> p

namespace InRange

open Positional

variable {x : Positional α} {p : Program α} {f : α → Positional β} {g : α → Program β}

theorem of_program (p : Program α) : InRange (liftM p) p := rfl

theorem result (a : α) : InRange (pure a) (pure a) := rfl

theorem bind (first : InRange x p) (later : ∀ a, InRange (f a) (g a)) :
    InRange (x >>= f) (p >>= g) := by
  have same : x = liftM p := first
  have same' : f = fun a => liftM (g a) := funext later
  show x >>= f = liftM (p >>= g)
  rw [same, same', liftM_bind]

/-- A request on both sides. -/
theorem step (p : Program α) (later : ∀ a, InRange (f a) (g a)) :
    InRange (liftM p >>= f) (p >>= g) := bind (of_program p) later

/-- A check on both sides. -/
theorem check (r : Except Error α) (later : ∀ a, InRange (f a) (g a)) :
    InRange (liftM r >>= f) (liftM r >>= g) := bind rfl later

/-- A choice between two computations that the same one goes on from. -/
theorem ite_bind {c : Prop} [Decidable c] {x y : Positional α} {p q : Program α}
    (yes : InRange x p) (no : InRange y q) (later : ∀ a, InRange (f a) (g a)) :
    InRange ((if c then x else y) >>= f) (if c then p >>= g else q >>= g) := by
  split
  · exact bind yes later
  · exact bind no later

section Looks

variable {es : List Expr} {i j : Nat} {q : Program β}

/-- An item that is there is found. -/
theorem item {e : Expr} {f : Expr → Positional β} (found : es[i]? = some e)
    (later : InRange (f e) q) : InRange (item es i >>= f) q := by
  unfold Positional.item
  rw [found]
  exact later

theorem item_result {e : Expr} (found : es[i]? = some e) :
    InRange (Positional.item es i) (pure e) := by
  unfold Positional.item
  rw [found]
  exact result e

theorem itemsFrom {f : List Expr → Positional β} (within : i ≤ es.length)
    (later : InRange (f (es.drop i)) q) : InRange (itemsFrom es i >>= f) q := by
  unfold Positional.itemsFrom
  rw [if_pos within]
  exact later

theorem itemsBetween {f : List Expr → Positional β} (ordered : i ≤ j) (within : j ≤ es.length)
    (later : InRange (f ((es.take j).drop i)) q) : InRange (itemsBetween es i j >>= f) q := by
  unfold Positional.itemsBetween
  rw [if_pos ⟨ordered, within⟩]
  exact later

theorem lastPosition {f : Nat → Positional β} (within : 1 ≤ es.length)
    (later : InRange (f (es.length - 1)) q) : InRange (lastPosition es >>= f) q := by
  unfold Positional.lastPosition
  rw [if_pos within]
  exact later

end Looks

end InRange

/-- A body that an indexed one agrees with, for the arguments that it can be supplied
with. -/
abbrev Body.AgreesWith (indexed : IndexedBody) (body : Body) : Prop :=
  body.Every fun site args p => InRange (indexed site args) p

/-- A computation in two parts that needs nothing from the machine. -/
theorem Program.liftM_bind_except (r : Except Error α) (f : α → Except Error β) :
    (liftM (r >>= f) : Program β) = liftM r >>= fun a => liftM (f a) := by
  cases r <;> rfl

namespace Indexed

open Library

variable {site : Site}

section Control

theorem inRange_quoted : Library.quoted.AgreesWith quoted := fun _ _ => .item_result rfl

theorem inRange_functionOf : Library.functionOf.AgreesWith functionOf := by
  intro site e
  refine .item rfl (.ite_bind (.item rfl (.of_program _)) (.item_result rfl) fun target => ?_)
  refine .step _ fun f => ?_
  cases f.code with
  | lambda parameters body => exact .step _ fun _ => .result _
  | _ => exact .result _

theorem inRange_conditional : Library.conditional.AgreesWith conditional := by
  intro site test yes no?
  refine .item rfl (.step _ fun v => ?_)
  split
  · exact .item rfl (.of_program _)
  · cases no? with
    | some no => exact .of_program _
    | none => exact .result _

theorem inRange_letParallel : letParallelBody.AgreesWith letParallel := by
  intro site bindings body
  refine .check _ fun bs => .step _ fun values => .step _ fun inner => ?_
  exact .itemsFrom (Nat.le_add_left 1 _) (.of_program _)

theorem inRange_letSequential : letSequentialBody.AgreesWith letSequential := by
  intro site bindings body
  refine .check _ fun bs => .step _ fun inner => ?_
  exact .itemsFrom (Nat.le_add_left 1 _) (.of_program _)

theorem inRange_functionDefinition :
    Library.functionDefinition.AgreesWith functionDefinition := by
  intro site nameExpr parameterList body
  refine .check _ fun name => .item rfl (.check _ fun ps => ?_)
  refine .itemsFrom (Nat.le_add_left 2 _) (.step _ fun f => .step _ fun _ => ?_)
  exact .item_result rfl

theorem inRange_abstraction : Library.abstraction.AgreesWith abstraction := by
  intro site parameterList body
  refine .item rfl (.check _ fun ps => ?_)
  exact .itemsFrom (Nat.le_add_left 1 _) (.step _ fun f => .result _)

theorem inRange_clausesFrom (clauses : List Expr) :
    InRange (clausesFrom site clauses) (Library.clausesFrom site clauses) := by
  induction clauses with
  | nil => exact .result _
  | cons clause rest ih =>
    unfold clausesFrom Library.clausesFrom
    -- A clause that is no list and an empty one are refused before any look at a form.
    rcases clause.properItems? with _ | _ | ⟨test, body⟩
    · exact .of_program (Program.fail _)
    · exact .of_program (Program.fail _)
    · refine .item rfl (.step _ fun v => ?_)
      split
      · cases body with
        | nil => exact .result _
        | cons form body => exact .itemsFrom (Nat.le_add_left 1 _) (.of_program _)
      · exact ih

theorem inRange_guarded (expected : Bool) :
    (Library.guarded expected).AgreesWith (guarded expected) := by
  intro site test body
  refine .item rfl (.step _ fun v => ?_)
  split
  · exact .itemsFrom (Nat.le_add_left 1 _) (.of_program _)
  · exact .result _

theorem inRange_application : Library.application.AgreesWith application := by
  intro site function first rest
  -- The last position is that of an argument behind the function, as there are two at least.
  have last : site.listAt (function :: first :: rest) (first :: rest).length =
      site.list (first :: rest).length ((first :: rest).getLast (by simp)) := by
    have found : (function :: first :: rest)[(first :: rest).length]? =
        some ((first :: rest).getLast (by simp)) := by
      rw [List.length_cons, List.getElem?_cons_succ, ← List.getLast?_eq_some_getLast,
        List.getLast?_eq_getElem?, List.length_cons, Nat.add_sub_cancel]
    rw [Site.listAt, Site.argument, found]
    rfl
  have between : ((function :: first :: rest).take (first :: rest).length).drop 1 =
      (first :: rest).dropLast := by
    rw [List.dropLast_eq_take]
    rfl
  refine .step _ fun f => .lastPosition (Nat.le_add_left 1 _) ?_
  refine .itemsBetween (Nat.le_add_left 1 _) (Nat.sub_le _ _) ?_
  rw [List.length_cons, Nat.add_sub_cancel, last, between]
  exact .check _ fun spread => .of_program _

theorem inRange_functionCall : Library.functionCall.AgreesWith functionCall := by
  intro site function args
  exact .step _ fun f => .itemsFrom (Nat.le_add_left 1 _) (.of_program _)

end Control

section Assignment

/-- The next argument that is left. -/
theorem found_of_drop {args rest : List Expr} {index : Nat} {e : Expr}
    (left : args.drop index = e :: rest) :
    args[index]? = some e ∧ args.drop (index + 1) = rest := by
  constructor
  · rw [← List.head?_drop, left]
    rfl
  · rw [← List.tail_drop, left]
    rfl

/-- Assignments that go down a list of arguments. -/
def assignmentsFrom (value : Site → Expr → Program Expr) (site : Site) (index : Nat)
    (last : Expr) : List Expr → Program Expr
  | target :: e :: rest => do
    let name ← site.symbol index target
    let v ← value site e
    Program.assign site.scope name v
    assignmentsFrom value site (index + 2) v rest
  | _ => .done last

theorem assignEvaluated_eq (index : Nat) (last : Expr) (args : List Expr) :
    assignEvaluated site index last args =
      assignmentsFrom (fun site e => site.eval e) site index last args := by
  induction index, last, args using assignEvaluated.induct with
  | case1 index last target e rest ih =>
    rw [assignEvaluated, assignmentsFrom]
    simp only [ih]
  | case2 args index last short =>
    rw [assignEvaluated, assignmentsFrom]
    · exact short
    · exact short

theorem assignGiven_eq (index : Nat) (last : Expr) (args : List Expr) :
    assignGiven site index last args =
      assignmentsFrom (fun _ v => pure v) site index last args := by
  induction index, last, args using assignGiven.induct with
  | case1 index last target v rest ih =>
    rw [assignGiven, assignmentsFrom]
    simp only [ih, pure_bind]
  | case2 args index last short =>
    rw [assignGiven, assignmentsFrom]
    · exact short
    · exact short

/-- The loop over positions, from an index on behind which `rest` is left. -/
theorem inRange_assignmentsFrom (value : Site → Expr → Program Expr) {args : List Expr}
    (index : Nat) (last : Expr) (rest : List Expr) (left : args.drop index = rest)
    (even : rest.length % 2 = 0) :
    InRange ((List.range' index ((rest.length + 1) / 2) 2).foldlM (fun _ i => do
        let name ← site.symbolAt args i
        let v ← value site (← Positional.item args (i + 1))
        Program.assign site.scope name v
        return v) last)
      (assignmentsFrom value site index last rest) := by
  induction index, last, rest using assignmentsFrom.induct with
  | case1 index last target e rest ih =>
    obtain ⟨found, left⟩ := found_of_drop left
    obtain ⟨found', left⟩ := found_of_drop left
    have half : ((target :: e :: rest).length + 1) / 2 = (rest.length + 1) / 2 + 1 := by
      simp only [List.length_cons]
      omega
    have named : site.symbolAt args index = site.symbol index target := by
      rw [Site.symbolAt, Site.argument, found]
      rfl
    rw [half, List.range'_succ, List.foldlM_cons, named, assignmentsFrom]
    simp only [bind_assoc]
    refine .check _ fun name => .item found' (.step _ fun v => .step _ fun _ => ?_)
    rw [pure_bind]
    refine ih v left ?_
    simp only [List.length_cons] at even
    omega
  | case2 rest index last short =>
    -- One argument alone, at which the second look would be out of range, is an odd number.
    have none_left : rest = [] := by
      rcases rest with _ | ⟨target, _ | ⟨e, rest⟩⟩
      · rfl
      · cases even
      · exact (short target e rest rfl).elim
    subst none_left
    exact .result last

theorem inRange_assignments (value : Site → Expr → Program Expr)
    (run : Site → List Expr → Program Expr)
    (same : ∀ site args, run site args = assignmentsFrom value site 0 .nil args) :
    (inPairs run).AgreesWith (assignments value) := by
  intro site args
  unfold assignments
  dsimp only
  split
  · rename_i even
    rw [same]
    exact inRange_assignmentsFrom value 0 .nil args rfl even
  · exact .of_program (Program.fail _)

theorem inRange_globalVariable : Library.globalVariable.AgreesWith globalVariable := by
  intro site target initial?
  refine .check _ fun name => ?_
  cases initial? with
  | none => exact .item_result rfl
  | some e =>
    refine .step _ fun v? => ?_
    split
    · exact .item_result rfl
    · exact .step _ fun v => .step _ fun _ => .item_result rfl

theorem inRange_globalParameter :
    globalParameter.AgreesWith (globalDefinition Program.defineGlobal) :=
  fun _ _ _ => .check _ fun _ => .item rfl (.step _ fun _ => .step _ fun _ => .item_result rfl)

theorem inRange_globalConstant :
    globalConstant.AgreesWith (globalDefinition Program.defineConstant) :=
  fun _ _ _ => .check _ fun _ => .item rfl (.step _ fun _ => .step _ fun _ => .item_result rfl)

end Assignment

section Inspection

theorem inRange_functionOfSymbol : Library.functionOfSymbol.AgreesWith functionOfSymbol := by
  intro site e
  refine .check _ fun name => .step _ fun f? => ?_
  cases f? with
  | some f => exact .result _
  | none => exact .of_program (Program.fail _)

theorem inRange_countedEvaluation :
    Library.countedEvaluation.AgreesWith countedEvaluation := by
  intro site e
  refine .step _ fun before => .item rfl (.step _ fun v => .step _ fun after => ?_)
  exact .step _ fun counted => .of_program _

theorem inRange_tracedEvaluation : Library.tracedEvaluation.AgreesWith tracedEvaluation :=
  fun _ _ => .item rfl (.of_program _)

theorem inRange_timedEvaluation : Library.timedEvaluation.AgreesWith timedEvaluation :=
  fun _ _ => .item rfl (.step _ fun _ => .step _ fun _ => .of_program _)

theorem inRange_loaded : Library.loaded.AgreesWith loaded :=
  fun _ _ => .check _ fun _ => .step _ fun _ => .of_program _

end Inspection

section Numeric

variable (op : Number → Number → Except ArithmeticFault Number) (neutral : Int64)

theorem inRange_numberAt {args : List Expr} {i : Nat} {e : Expr} (found : args[i]? = some e) :
    InRange (numberAt site args i) (liftM (number site i e)) :=
  .item found (.of_program _)

theorem inRange_accumulate {args : List Expr} {index : Nat} {rest : List Expr} (acc : Number)
    (left : args.drop index = rest) :
    InRange ((List.range' index rest.length).foldlM (fun acc i => do
        arithmetic site (op acc (← numberAt site args i))) acc)
      (liftM (Library.accumulate site op acc index rest)) := by
  induction rest generalizing acc index with
  | nil => exact .result acc
  | cons e rest ih =>
    obtain ⟨found, left⟩ := found_of_drop left
    rw [List.length_cons, List.range'_succ, List.foldlM_cons, Library.accumulate, bind_assoc,
      Program.liftM_bind_except]
    refine .bind (inRange_numberAt found) fun n => ?_
    rw [Program.liftM_bind_except]
    exact .check _ fun acc => ih acc left

theorem inRange_total : (Library.total op neutral).AgreesWith (total op neutral) :=
  fun _ _ => .bind (inRange_accumulate op _ rfl) fun _ => .result _

theorem inRange_reduction : (Library.reduction op neutral).AgreesWith (reduction op neutral) := by
  intro site first rest
  refine .bind (inRange_numberAt rfl) fun n => ?_
  cases rest with
  | nil => exact .check _ fun _ => .result _
  | cons second rest =>
    refine .itemsFrom (Nat.le_add_left 1 _) ?_
    exact .bind (inRange_accumulate op n rfl) fun _ => .result _

theorem inRange_stepBy : (Library.stepBy op).AgreesWith (stepBy op) :=
  fun _ _ => .bind (inRange_numberAt rfl) fun _ => .check _ fun _ => .result _

theorem inRange_modulus : Library.modulus.AgreesWith modulus :=
  fun _ _ _ => .bind (inRange_numberAt rfl) fun _ => .bind (inRange_numberAt rfl) fun _ =>
    .check _ fun _ => .result _

end Numeric

section Relation

theorem windows_cons_cons (a b : Expr) (rest : List Expr) :
    windows (a :: b :: rest) = [a, b] :: windows (b :: rest) := by
  simp [windows, List.range_succ_eq_map, Function.comp_def]

theorem inRange_chained (holds : Expr → Expr → Except Error Bool) (args : List Expr) :
    InRange (chained holds (windows args)) (liftM (Library.chained holds args)) := by
  induction args using Library.chained.induct with
  | case1 a b rest ih =>
    rw [windows_cons_cons, chained, Library.chained, Program.liftM_bind_except]
    refine .item rfl (.item rfl (.check _ fun answer => ?_))
    cases answer with
    | true => exact ih
    | false => exact .result false
  | case2 args short =>
    rw [Library.chained]
    · rcases args with _ | ⟨a, _ | ⟨b, rest⟩⟩
      · exact .result true
      · exact .result true
      · exact (short a b rest rfl).elim
    · exact short

theorem inRange_comparison (holds : Site → Expr → Expr → Except Error Bool) :
    (Library.comparison holds).AgreesWith (comparison holds) :=
  fun site _ _ => .bind (inRange_chained (holds site) _) fun _ => .result _

theorem inRange_sameObject : Library.sameObject.AgreesWith sameObject :=
  fun _ _ _ => .item rfl (.item rfl (.result _))

theorem inRange_hasValue : Library.hasValue.AgreesWith (bindingOf Program.valueOf) :=
  fun _ _ => .check _ fun _ => .step _ fun _ => .result _

theorem inRange_hasFunction : Library.hasFunction.AgreesWith (bindingOf Program.functionOf) :=
  fun _ _ => .check _ fun _ => .step _ fun _ => .result _

theorem inRange_constant : Library.constant.AgreesWith constant := by
  intro site e
  refine .item rfl ?_
  cases e with
  | symbol name => exact .step _ fun _ => .result _
  | _ => exact .result _

end Relation

section Sequence

theorem inRange_pairOf : Library.pairOf.AgreesWith pairOf :=
  fun _ _ _ => .item rfl (.item rfl (.of_program _))

theorem inRange_elementAt (index : Nat) : (Library.elementAt index).AgreesWith (elementAt index) :=
  fun _ _ => .item rfl (.of_program _)

theorem inRange_restOf : Library.restOf.AgreesWith restOf := by
  intro site e
  refine .item rfl ?_
  cases e with
  | pair id mark car cdr => exact .result cdr
  | _ =>
    dsimp only
    split
    · exact .result _
    · exact .of_program (Program.fail _)

theorem inRange_lastPair : Library.lastPair.AgreesWith lastPair := by
  intro site e
  refine .item rfl ?_
  dsimp only
  split
  · exact .result _
  · exact .of_program (Program.fail _)

theorem inRange_concatenated {args rest more : List Expr} {index : Nat} (items : List Expr)
    (left : args.drop index = rest ++ more) :
    InRange ((List.range' index rest.length).foldlM (fun items i => do
        return items ++ (← site.listAt args i)) items)
      (liftM ((items ++ ·) <$> concatenated site index rest)) := by
  induction rest generalizing items index with
  | nil =>
    have all : (items ++ ·) <$> concatenated site index [] = .ok items := by
      simp [concatenated, Functor.map, Except.map]
    rw [all]
    exact .result items
  | cons e rest ih =>
    obtain ⟨found, left⟩ := found_of_drop left
    have checked : site.listAt args index = site.list index e := by
      rw [Site.listAt, Site.argument, found]
      rfl
    have grouped : (items ++ ·) <$> concatenated site index (e :: rest) =
        site.list index e >>= fun first =>
          (items ++ first ++ ·) <$> concatenated site (index + 1) rest := by
      rw [concatenated, map_bind]
      congr 1
      funext first
      rw [map_bind]
      simp [List.append_assoc]
    rw [List.length_cons, List.range'_succ, List.foldlM_cons, checked, bind_assoc, grouped,
      Program.liftM_bind_except]
    refine .check _ fun first => ?_
    rw [pure_bind]
    exact ih (items ++ first) left

theorem inRange_appended : Library.appended.AgreesWith appended := by
  intro site args
  unfold appended
  dsimp only
  cases last : args.getLast? with
  | none => exact .result _
  | some tail =>
    have parts : args.drop 0 = args.dropLast ++ [tail] :=
      (List.dropLast_append_getLast? tail last).symm
    have same : ([] ++ ·) <$> concatenated site 0 args.dropLast =
        concatenated site 0 args.dropLast := by
      simp
    rw [← same]
    exact .bind (inRange_concatenated [] parts) fun items => .of_program _

theorem inRange_reversed : Library.reversed.AgreesWith reversed :=
  fun _ _ => .check _ fun _ => .of_program _

theorem inRange_size : Library.size.AgreesWith size := by
  intro site e
  refine .item rfl ?_
  cases e with
  | string text => exact .result _
  | _ => exact .check _ fun _ => .result _

theorem inRange_tailFrom (v e : Expr) (args : List Expr) (found : args[0]? = some v) :
    InRange (tailFrom args e) (pure (Library.tailFrom v e)) := by
  induction e with
  | pair id mark car cdr _ ih =>
    unfold tailFrom Library.tailFrom
    refine .item found ?_
    split
    · exact .result _
    · exact ih
  | _ => exact .result _

theorem inRange_memberOf : Library.memberOf.AgreesWith memberOf := by
  intro site v e
  refine .item rfl ?_
  dsimp only
  split
  · exact inRange_tailFrom v e _ rfl
  · exact .of_program (Program.fail _)

theorem inRange_indexed : Library.indexed.AgreesWith indexed := by
  intro site i e
  refine .check _ fun n => ?_
  split
  · exact .of_program (Program.fail _)
  · exact .itemsFrom (by simp) (.item rfl (.of_program _))

theorem inRange_sorted : Library.sorted.AgreesWith sorted := by
  intro site e predicate?
  refine .check _ fun items => ?_
  cases predicate? with
  | none => exact .check _ fun result => .of_program _
  | some p => exact .step _ fun f => .step _ fun result => .of_program _

end Sequence

end Indexed

open Indexed in
/-- Every builtin looks for arguments only where its body has them. -/
theorem Builtin.inRange_body (op : Builtin) : op.body.AgreesWith op.indexed := by
  cases op with
  | quote => exact inRange_quoted
  | function => exact inRange_functionOf
  | ifElse => exact inRange_conditional
  | and | or | progn => exact fun _ _ => .of_program _
  | letParallel => exact inRange_letParallel
  | letSequential => exact inRange_letSequential
  | setq => exact inRange_assignments _ _ fun _ args => assignEvaluated_eq 0 .nil args
  | defvar => exact inRange_globalVariable
  | defparameter => exact inRange_globalParameter
  | defconstant => exact inRange_globalConstant
  | defun => exact inRange_functionDefinition
  | lambda => exact inRange_abstraction
  | cond => exact fun _ args => inRange_clausesFrom args
  | whenTrue => exact inRange_guarded true
  | whenFalse => exact inRange_guarded false
  | eval => exact fun _ _ => .item rfl (.of_program _)
  | apply => exact inRange_application
  | funcall => exact inRange_functionCall
  | symbolFunction => exact inRange_functionOfSymbol
  | set => exact inRange_assignments _ _ fun _ args => assignGiven_eq 0 .nil args
  | debugStats => exact inRange_countedEvaluation
  | debugCalls => exact inRange_tracedEvaluation
  | elapsedTime => exact inRange_timedEvaluation
  | add | multiply => exact inRange_total _ _
  | subtract | divide => exact inRange_reduction _ _
  | increment | decrement => exact inRange_stepBy _
  | modulo => exact inRange_modulus
  | equal | different | greater | greaterOrEqual | less | lessOrEqual =>
    exact inRange_comparison _
  | eql => exact inRange_sameObject
  | boundp => exact inRange_hasValue
  | fboundp => exact inRange_hasFunction
  | constantp => exact inRange_constant
  | list => exact fun _ _ => .of_program _
  | cons => exact inRange_pairOf
  | car | cadr | caddr | cadddr => exact inRange_elementAt _
  | cdr => exact inRange_restOf
  | last => exact inRange_lastPair
  | append => exact inRange_appended
  | reverse => exact inRange_reversed
  | length => exact inRange_size
  | member => exact inRange_memberOf
  | nth => exact inRange_indexed
  | sort => exact inRange_sorted
  | print => exact fun _ _ => .step _ fun _ => .result _
  | load => exact inRange_loaded
  | _ => exact fun _ _ => .item rfl (.result _)

end Lisp
