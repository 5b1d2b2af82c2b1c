import Lisp.Proofs.ArgumentRanges
import Lisp.Proofs.BuiltinCalls
import Lisp.Proofs.LibraryRaising

/-!
# The argument that a type error names

An error about the type of an argument says at which position the argument stands, what was
expected there and of what type it is. A builtin that is handed its arguments evaluated names
an argument that is there, is of this type and is not what was expected.

Three builtins count the positions behind their first argument from zero again: a difference
and a quotient once their first argument has been found to be a number, and the access to an
element of a list when it asks for the list. There the argument to blame stands one position
farther on than the error says, and the argument that the error names is right.

Only the errors that a builtin raises itself are meant. What it evaluates and what it calls
raises errors about arguments of its own.
-/

namespace Lisp

variable {α β : Type} {w : World} {apply : Applier} {e : Error}

/-! ### Errors that a program raises itself -/

/-- A computation has returned and one thing holds, or has failed and another does. -/
def Leads (returned : α → Machine → Prop) (failed : Error → Prop) :
    EStateM.Result Error Machine α → Prop
  | .ok a m => returned a m
  | .error e _ => failed e

namespace Leads

variable {returned returned' : α → Machine → Prop} {failed failed' : Error → Prop}
  {r : EStateM.Result Error Machine α}

theorem imp (h : Leads returned failed r) (values : ∀ a m, returned a m → returned' a m)
    (errors : ∀ e, failed e → failed' e) : Leads returned' failed' r := by
  cases r with
  | ok a m => exact values a m h
  | error e m => exact errors e h

theorem elim {goal : Prop} (h : Leads returned failed r)
    (values : ∀ a m, returned a m → goal) (errors : ∀ e, failed e → goal) : goal := by
  cases r with
  | ok a m => exact values a m h
  | error e m => exact errors e h

theorem and (h : Leads returned failed r) (h' : Leads returned' failed' r) :
    Leads (fun a m => returned a m ∧ returned' a m) (fun e => failed e ∧ failed' e) r := by
  cases r with
  | ok a m => exact ⟨h, h'⟩
  | error e m => exact ⟨h, h'⟩

end Leads

/-- A run of a program that fails of its own accord or at a request, and not in what it has
evaluated or called. -/
def Program.FailsItself (w : World) (apply : Applier) (e : Error) : Program α → Machine → Prop
  | done _, _ => False
  | fail e', _ => e' = e
  | perform x next, m =>
    Leads (fun a m => (next a).FailsItself w apply e m) (· = e) (x.perform w m)
  | eval scope x next, m =>
    Leads (fun v m => (next v).FailsItself w apply e m) (fun _ => False)
      (evaluate apply scope x m)
  | call f args scope next, m =>
    Leads (fun v m => (next v).FailsItself w apply e m) (fun _ => False) (apply f args scope m)
  | traced scope x next, m =>
    Leads (fun v m => (next v).FailsItself w apply e m) (fun _ => False)
      (Lisp.traced (evaluate apply scope x) m)

theorem outcome_bind {run : Run α} {next : α → Run β} {m : Machine} {r : Except Error β}
    (h : Leads (fun a m => outcome (next a m) = r) (fun e => .error e = r) (run m)) :
    outcome ((run >>= next) m) = r := by
  cases ran : run m with
  | ok a m' =>
    rw [ran] at h
    rw [bind_of_ok ran]
    exact h
  | error e m' =>
    rw [ran] at h
    rw [bind_of_error ran]
    exact h

/-- A run that fails so ends with the error. -/
theorem Program.outcome_of_failsItself {p : Program α} {m : Machine}
    (h : p.FailsItself w apply e m) : outcome (p.run w apply m) = .error e := by
  induction p generalizing m with
  | done a => exact h.elim
  | fail e' => exact congrArg Except.error h
  | perform x next ih => exact outcome_bind (h.imp (fun a _ => ih a) fun _ => congrArg Except.error)
  | eval scope x next ih => exact outcome_bind (h.imp (fun v _ => ih v) fun _ => False.elim)
  | call f args scope next ih => exact outcome_bind (h.imp (fun v _ => ih v) fun _ => False.elim)
  | traced scope x next ih => exact outcome_bind (h.imp (fun v _ => ih v) fun _ => False.elim)

/-- What a program raises whatever it is answered, it raises in a run, if requests fail with
the same kind of error. -/
theorem Program.Ends.of_failsItself {allowed : Error → Prop} {returns : α → Prop}
    (requests : ∀ (x : Effect) m, Leads (fun _ _ => True) allowed (x.perform w m))
    {p : Program α} {m : Machine} (own : p.Ends allowed returns)
    (h : p.FailsItself w apply e m) : allowed e := by
  induction p generalizing m with
  | done a => exact h.elim
  | fail e' => exact h ▸ own
  | perform x next ih =>
    have answered := h.and (requests x m)
    exact answered.elim (fun a _ goes => ih a (own a) goes.1) fun e' failed => failed.1 ▸ failed.2
  | eval scope x next ih => exact h.elim (fun v _ => ih v (own v)) fun _ => False.elim
  | call f args scope next ih => exact h.elim (fun v _ => ih v (own v)) fun _ => False.elim
  | traced scope x next ih => exact h.elim (fun v _ => ih v (own v)) fun _ => False.elim

/-- A call below the limit on nested calls that its function fails itself. -/
def World.RaisesItself (w : World) (f : Function) (args : List Expr) (scope : ScopeId)
    (m : Machine) (e : Error) : Prop :=
  m.depth < w.maxDepth ∧
    (f.program w args scope).FailsItself w (applyWithin w (w.maxDepth - (m.depth + 1))) e
      (m.enterCall f.name args)

theorem World.outcome_of_raisesItself {f : Function} {args : List Expr} {scope : ScopeId}
    {m : Machine} (h : w.RaisesItself f args scope m e) :
    outcome (w.apply f args scope m) = .error e := by
  rw [w.apply_of_room f args scope h.1, outcome_framed, World.run, depth_enterCall]
  exact Program.outcome_of_failsItself h.2

/-! ### Arguments that are not what was expected -/

/-- Whether an argument is what a builtin expects. -/
def Expectation.accepts : Expectation → Expr → Bool
  | .symbol, e => Library.isSymbol e
  | .integer, e => Library.isInteger e
  | .number, e => e.isNumber
  | .string, e => Library.isString e
  | .list, e => e.isList
  | .properList, e => e.properItems?.isSome
  | .function, e => Library.isFunction e || Library.isSymbol e

/-- The argument at a position is there, is of a type and is not what was expected. -/
def Guilty (args : List Expr) (i : Nat) (expected : Expectation) (received : String) : Prop :=
  ∃ e, args[i]? = some e ∧ e.typeName = received ∧ expected.accepts e = false

/-- Errors about the type of an argument come under the name of the function, and name a
position, an expectation and a type for which something holds. -/
def Site.Blames (site : Site) (holds : Nat → Expectation → String → Prop) : Error → Prop
  | .parameters name (.wrongType i expected received) =>
    name = site.name ∧ holds i expected received
  | _ => True

variable {site : Site} {args : List Expr} {i : Nat}

theorem Site.Blames.imp {holds holds' : Nat → Expectation → String → Prop}
    (weaker : ∀ i expected received, holds i expected received → holds' i expected received)
    (h : site.Blames holds e) : site.Blames holds' e := by
  unfold Blames at *
  split at h
  · exact ⟨h.1, weaker _ _ _ h.2⟩
  · trivial

/-- No request fails because of the type of an argument. -/
theorem leads_perform (holds : Nat → Expectation → String → Prop) (x : Effect) (m : Machine) :
    Leads (fun _ _ => True) (site.Blames holds) (x.perform w m) := by
  have update : ∀ id name f, Leads (fun _ _ => True) (site.Blames holds)
      (Machine.update id name f m) := by
    intro id name f
    unfold Machine.update
    split <;> trivial
  cases x with
  | assign scope name v => exact update _ _ _
  | defineGlobal name v => exact update _ _ _
  | defineConstant name v => exact update _ _ _
  | defineFunction name f => exact update _ _ _
  | file path =>
    simp only [Effect.perform]
    split <;> trivial
  | _ => trivial

section Checks

variable {x : Expr}

theorem blames_wrongType {expected : Expectation} (found : args[i]? = some x)
    (refused : expected.accepts x = false) :
    site.Blames (Guilty args) (site.wrongType i expected x) :=
  ⟨rfl, x, found, rfl, refused⟩

theorem blames_symbol (found : args[i]? = some x) :
    ExceptRaises (site.Blames (Guilty args)) (site.symbol i x) := by
  cases x with
  | symbol name => trivial
  | _ => exact blames_wrongType found rfl

theorem blames_integer (found : args[i]? = some x) :
    ExceptRaises (site.Blames (Guilty args)) (site.integer i x) := by
  cases x with
  | integer n => trivial
  | _ => exact blames_wrongType found rfl

theorem blames_string (found : args[i]? = some x) :
    ExceptRaises (site.Blames (Guilty args)) (site.string i x) := by
  cases x with
  | string text => trivial
  | _ => exact blames_wrongType found rfl

theorem blames_list (found : args[i]? = some x) :
    ExceptRaises (site.Blames (Guilty args)) (site.list i x) := by
  unfold Site.list
  split
  · split
    · trivial
    · rename_i improper
      exact blames_wrongType found (by rw [Expectation.accepts, improper]; rfl)
  · rename_i other
    exact blames_wrongType found (eq_false_of_ne_true other)

/-- An argument that has to begin as a list. -/
theorem blames_unlessList (found : args[i]? = some x) (v : Expr) :
    Program.Raises (site.Blames (Guilty args))
      (if x.isList then .done v else .fail (site.wrongType i .list x)) := by
  split
  · trivial
  · rename_i other
    exact blames_wrongType found (eq_false_of_ne_true other)

theorem blames_function (found : args[i]? = some x) :
    (site.function i x).Raises (site.Blames (Guilty args)) := by
  cases x with
  | function f => trivial
  | symbol name =>
    have asked : (Program.functionOf site.scope name).Raises (site.Blames (Guilty args)) :=
      fun _ => trivial
    refine asked.bind fun f? => ?_
    split <;> trivial
  | _ => exact blames_wrongType found rfl

end Checks

/-- What holds of a body for all arguments may be weakened. -/
theorem Body.Every.imp {holds holds' : Site → List Expr → Program Expr → Prop} {body : Body}
    (h : body.Every holds) (weaker : ∀ site args p, holds site args p → holds' site args p) :
    body.Every holds' := by
  cases body with
  | unary run => exact fun site a => weaker _ _ _ (h site a)
  | binary run => exact fun site a b => weaker _ _ _ (h site a b)
  | oneOrTwo run => exact fun site a b? => weaker _ _ _ (h site a b?)
  | twoOrThree run => exact fun site a b c? => weaker _ _ _ (h site a b c?)
  | atLeastOne run => exact fun site a rest => weaker _ _ _ (h site a rest)
  | atLeastTwo run => exact fun site a b rest => weaker _ _ _ (h site a b rest)
  | variadic run => exact fun site args => weaker _ _ _ (h site args)

/-- A body whose errors about types name arguments that are not what was expected. -/
abbrev Body.Blames (body : Body) : Prop :=
  body.Every fun site args p => p.Raises (site.Blames (Guilty args))

namespace Library

open Program

section Control

theorem blames_application : application.Blames := by
  intro site function first rest
  have last : (function :: first :: rest)[(first :: rest).length]? =
      some ((first :: rest).getLast (by simp)) := by
    rw [List.length_cons, List.getElem?_cons_succ, ← List.getLast?_eq_some_getLast,
      List.getLast?_eq_getElem?, List.length_cons, Nat.add_sub_cancel]
  refine (blames_function rfl).bind fun f => ?_
  exact raises_check (blames_list last) fun spread => fun _ => trivial

theorem blames_functionCall : functionCall.Blames := by
  intro site function args
  exact (blames_function rfl).bind fun f => fun _ => trivial

theorem blames_assignGiven {rest : List Expr} (last : Expr) (left : args.drop i = rest) :
    (assignGiven site i last rest).Raises (site.Blames (Guilty args)) := by
  induction i, last, rest using assignGiven.induct with
  | case1 i last target v rest ih =>
    obtain ⟨found, left⟩ := Indexed.found_of_drop left
    obtain ⟨_, left⟩ := Indexed.found_of_drop left
    rw [assignGiven]
    exact raises_check (blames_symbol found) fun name => raises_ask _ fun _ => ih left
  | case2 rest i last short =>
    rw [assignGiven]
    · trivial
    · exact short

theorem blames_assignmentOfValues : assignmentOfValues.Blames := by
  intro site args
  dsimp only
  split
  · exact blames_assignGiven .nil rfl
  · trivial

theorem blames_functionOfSymbol : functionOfSymbol.Blames := by
  intro site e
  refine raises_check (blames_symbol rfl) fun name => raises_ask _ fun f? => ?_
  cases f? with
  | some f => trivial
  | none => trivial

theorem blames_loaded : loaded.Blames := by
  intro site e
  refine raises_check (blames_string rfl) fun path => raises_ask _ fun text => ?_
  exact raises_evalForms fun _ => trivial

end Control

section Numeric

variable (op : Number → Number → Except ArithmeticFault Number) (neutral : Int64)

/-- The first argument that is no number. -/
structure FirstOther (args : List Expr) (i : Nat) (expected : Expectation) (received : String) :
    Prop where
  number : expected = .number
  guilty : Guilty args i expected received
  before : ∀ x ∈ args.take i, x.isNumber = true

theorem number_cases (site : Site) (i : Nat) (x : Expr) :
    (x.isNumber = true ∧ ∃ n, number site i x = .ok n) ∨
      x.isNumber = false ∧ number site i x = .error (site.wrongType i .number x) := by
  cases x with
  | integer n => exact .inl ⟨rfl, _, rfl⟩
  | float y => exact .inl ⟨rfl, _, rfl⟩
  | _ => exact .inr ⟨rfl, rfl⟩

theorem blames_number {x : Expr} (found : args[i]? = some x) :
    ExceptRaises (site.Blames (Guilty args)) (number site i x) := by
  rcases number_cases site i x with ⟨-, n, ok⟩ | ⟨other, fails⟩
  · rw [ok]
    trivial
  · rw [fails]
    exact blames_wrongType found other

theorem blames_arithmetic {holds : Nat → Expectation → String → Prop}
    (r : Except ArithmeticFault Number) :
    ExceptRaises (site.Blames holds) (arithmetic site r) := by
  cases r with
  | ok n => trivial
  | error fault => cases fault <;> trivial

theorem blames_accumulate (acc : Number) {rest : List Expr} (left : args.drop i = rest)
    (before : ∀ x ∈ args.take i, x.isNumber = true) :
    ExceptRaises (site.Blames (FirstOther args)) (accumulate site op acc i rest) := by
  induction rest generalizing acc i with
  | nil => trivial
  | cons x rest ih =>
    obtain ⟨found, left⟩ := Indexed.found_of_drop left
    rw [accumulate]
    rcases number_cases site i x with ⟨here, n, ok⟩ | ⟨other, fails⟩
    · rw [ok]
      show ExceptRaises _ (arithmetic site (op acc n) >>= fun acc =>
        accumulate site op acc (i + 1) rest)
      refine ExceptRaises.bind (blames_arithmetic _) fun acc => ih acc left ?_
      rw [List.take_add_one, found]
      intro y mem
      rcases List.mem_append.mp mem with earlier | last
      · exact before y earlier
      · rwa [List.mem_singleton.mp last]
    · rw [fails]
      exact ⟨rfl, rfl, ⟨x, found, rfl, other⟩, before⟩

theorem blames_total : (total op neutral).Blames := by
  intro site args
  have checked : ExceptRaises (site.Blames (FirstOther args))
      (accumulate site op (.integer neutral) 0 args) :=
    blames_accumulate op _ rfl nofun
  refine raises_check (r := accumulate site op (.integer neutral) 0 args) ?_ fun _ => trivial
  exact Program.Ends.imp checked (fun _ => .imp fun _ _ _ h => h.guilty) fun _ => id

theorem blames_stepBy : (stepBy op).Blames := by
  intro site e
  refine raises_check (blames_number rfl) fun n => ?_
  exact raises_check (blames_arithmetic _) fun _ => trivial

theorem blames_modulus : modulus.Blames := by
  intro site a b
  refine raises_check (blames_number rfl) fun x => raises_check (blames_number rfl) fun y => ?_
  exact raises_check (blames_arithmetic _) fun _ => trivial

end Numeric

section Relation

theorem blames_comparison {holds : Site → Expr → Expr → Except Error Bool}
    (asked : ∀ site args a b, ExceptRaises (site.Blames (Guilty args)) (holds site a b)) :
    (comparison holds).Blames := by
  intro site first rest
  exact raises_check (raises_chained (asked site (first :: rest))) fun _ => trivial

theorem blames_order {holds : Nat → Expectation → String → Prop} (a b : Expr) :
    ExceptRaises (site.Blames holds) (order site a b) := by
  unfold order
  split <;> trivial

theorem blames_ordered (accept : Ordering → Bool) : (ordered accept).Blames :=
  blames_comparison fun _ _ a b => (blames_order a b).map accept

theorem blames_equality (expected : Bool) : (equality expected).Blames :=
  blames_comparison fun _ _ _ _ => trivial

theorem blames_hasValue : hasValue.Blames := by
  intro site e
  exact raises_check (blames_symbol rfl) fun name => fun _ => trivial

theorem blames_hasFunction : hasFunction.Blames := by
  intro site e
  exact raises_check (blames_symbol rfl) fun name => fun _ => trivial

theorem blames_constant : constant.Blames := by
  intro site e
  cases e with
  | symbol name => exact fun _ => trivial
  | _ => trivial

end Relation

section Sequence

theorem blames_elementAt (index : Nat) : (elementAt index).Blames := by
  intro site e
  show ExceptRaises _ (element site index e)
  unfold element
  split
  · trivial
  · rename_i other
    exact blames_wrongType rfl (eq_false_of_ne_true other)

theorem blames_restOf : restOf.Blames := by
  intro site e
  cases e with
  | pair id mark car cdr => trivial
  | nil => trivial
  | bool b =>
    cases b with
    | false => trivial
    | true => exact blames_wrongType rfl rfl
  | _ => exact blames_wrongType rfl rfl

theorem blames_lastPair : lastPair.Blames :=
  fun _ _ => blames_unlessList rfl _

theorem blames_concatenated {rest more : List Expr} (left : args.drop i = rest ++ more) :
    ExceptRaises (site.Blames (Guilty args)) (concatenated site i rest) := by
  induction rest generalizing i with
  | nil => trivial
  | cons x rest ih =>
    obtain ⟨found, left⟩ := Indexed.found_of_drop left
    refine ExceptRaises.bind (blames_list found) fun items => ?_
    exact ExceptRaises.bind (ih left) fun _ => trivial

theorem blames_appended : appended.Blames := by
  intro site args
  dsimp only
  cases last : args.getLast? with
  | none => trivial
  | some tail =>
    have parts : args.drop 0 = args.dropLast ++ [tail] :=
      (List.dropLast_append_getLast? tail last).symm
    exact raises_check (blames_concatenated parts) fun _ => raises_listWithTail _ _

theorem blames_reversed : reversed.Blames := by
  intro site e
  exact raises_check (blames_list rfl) fun _ => raises_list _

theorem blames_size : size.Blames := by
  intro site e
  dsimp only
  split
  · trivial
  · exact raises_check (blames_list rfl) fun _ => trivial

theorem blames_memberOf : memberOf.Blames :=
  fun _ _ _ => blames_unlessList rfl _

theorem blames_sorted : sorted.Blames := by
  intro site e predicate?
  refine raises_check (blames_list (by cases predicate? <;> rfl)) fun items => ?_
  cases predicate? with
  | none =>
    have arranged : ExceptEnds (site.Blames (Guilty [e])) _ (mergeSort (naturallyLess site) items) :=
      mergeSort_perm (exceptEndings _) fun a _ b _ => (blames_order a b).map (· == .lt)
    exact arranged.raises.bind fun result => raises_list result
  | some p =>
    refine (blames_function rfl).bind fun f => ?_
    have arranged : (mergeSort (lessBy site f) items).Ends (site.Blames (Guilty [e, p])) _ :=
      mergeSort_perm (endings _) fun a _ b _ => fun _ => trivial
    exact arranged.raises.bind fun result => raises_list result

end Sequence

end Library

/-! ### Where the positions are counted from -/

/-- Whether an error of a builtin counts positions from the second argument on. -/
def Builtin.countsFromSecond (op : Builtin) (args : List Expr) (expected : Expectation) : Bool :=
  match op, args with
  | .subtract, first :: _ => first.isNumber
  | .divide, first :: _ => first.isNumber
  | .nth, _ => expected == .list
  | _, _ => false

/-- The position of the argument that an error of a builtin is about. -/
def Builtin.guiltyPosition (op : Builtin) (args : List Expr) (expected : Expectation) (i : Nat) :
    Nat :=
  if op.countsFromSecond args expected then i + 1 else i

/-- The argument that an error is about has the type and is not what was expected. The same
holds of the argument that the error names if it counts from the first argument on. If it
counts from the second one, this is so only by chance: an index is an integer, and so is what
stands for the list. -/
structure Builtin.Places (op : Builtin) (args : List Expr) (i : Nat) (expected : Expectation)
    (received : String) : Prop where
  guilty : Guilty args (op.guiltyPosition args expected i) expected received
  named_iff : Guilty args i expected received ↔
    (op.countsFromSecond args expected = true → op = .nth ∧ received = "integer")

section Places

open Library

variable {op : Builtin} {expected : Expectation} {received : String}

theorem Builtin.Places.of_guilty (first : op.countsFromSecond args expected = false)
    (h : Guilty args i expected received) : op.Places args i expected received where
  guilty := by
    rw [guiltyPosition, first]
    exact h
  named_iff := iff_of_true h (by rw [first]; nofun)

/-- Behind a number in front, the position of the first argument that is no number. -/
theorem Library.FirstOther.places {first : Expr} {rest : List Expr}
    (counts : op.countsFromSecond (first :: rest) expected = true) (other : op ≠ .nth)
    (number : first.isNumber = true) (h : FirstOther rest i expected received) :
    op.Places (first :: rest) i expected received where
  guilty := by
    obtain ⟨x, found, type, refused⟩ := h.guilty
    rw [Builtin.guiltyPosition, if_pos counts]
    exact ⟨x, by rwa [List.getElem?_cons_succ], type, refused⟩
  named_iff := by
    refine iff_of_false ?_ fun chance => other (chance counts).1
    rintro ⟨x, found, -, refused⟩
    rw [h.number] at refused
    have right : x.isNumber = true := by
      cases i with
      | zero => rwa [← Option.some.inj found]
      | succ j =>
        refine h.before x (List.mem_of_getElem? (i := j) ?_)
        rwa [List.getElem?_take_of_lt (Nat.lt_succ_self j)]
    rw [Expectation.accepts, right] at refused
    cases refused

theorem places_reduction (f : Number → Number → Except ArithmeticFault Number) (neutral : Int64)
    (counts : ∀ first rest expected,
      op.countsFromSecond (first :: rest) expected = first.isNumber) (other : op ≠ .nth) :
    (reduction f neutral).Every fun site args p => p.Raises (site.Blames (op.Places args)) := by
  intro site first rest
  dsimp only
  rcases number_cases site 0 first with ⟨here, n, ok⟩ | ⟨wrong, fails⟩
  · rw [ok]
    show (if rest.isEmpty then _ else _ : Program Expr).Raises _
    split
    · exact raises_check (blames_arithmetic _) fun _ => trivial
    · have checked : ExceptRaises (site.Blames (FirstOther rest)) (accumulate site f n 0 rest) :=
        blames_accumulate f n rfl nofun
      refine raises_check (r := accumulate site f n 0 rest) ?_ fun _ => trivial
      refine Program.Ends.imp checked (fun _ => .imp fun _ _ _ h => ?_) fun _ => id
      exact h.places ((counts _ _ _).trans here) other here
  · rw [fails]
    exact ⟨rfl, .of_guilty ((counts _ _ _).trans wrong) ⟨first, rfl, rfl, wrong⟩⟩

theorem places_indexed :
    indexed.Every fun site args p => p.Raises (site.Blames (Builtin.nth.Places args)) := by
  intro site i e
  cases i with
  | integer n =>
    show (if n.toInt < 0 then _ else _ : Program Expr).Raises _
    split
    · trivial
    show ExceptRaises _ (element site n.toInt.toNat e)
    unfold element
    split
    · trivial
    rename_i other
    have refused : Expectation.list.accepts e = false := eq_false_of_ne_true other
    refine ⟨rfl, ⟨e, rfl, rfl, refused⟩, ?_⟩
    constructor
    · rintro ⟨x, found, type, -⟩ -
      obtain rfl := Option.some.inj found
      exact ⟨rfl, type.symm⟩
    · intro chance
      exact ⟨.integer n, rfl, (chance rfl).2.symm, rfl⟩
  | _ => exact ⟨rfl, .of_guilty rfl ⟨_, rfl, rfl, rfl⟩⟩

/-- An error of a body that counts from the first argument names the argument to blame. -/
theorem Body.Blames.places {body : Body} (h : body.Blames)
    (first : ∀ args expected, op.countsFromSecond args expected = false) :
    body.Every fun site args p => p.Raises (site.Blames (op.Places args)) :=
  h.imp fun _ _ _ raises =>
    raises.imp (fun _ => .imp fun _ _ _ guilty => .of_guilty (first _ _) guilty) fun _ => id

end Places

open Library in
/-- Every builtin that is handed values blames the argument that is to blame, at the position
counted from its first or from its second argument. -/
theorem Builtin.places_body (op : Builtin) (ordinary : op.isSpecial = false) :
    op.body.Every fun site args p => p.Raises (site.Blames (op.Places args)) := by
  have counted : ∀ body : Body, body.Blames →
      (∀ args expected, op.countsFromSecond args expected = false) →
      body.Every fun site args p => p.Raises (site.Blames (op.Places args)) :=
    fun _ h first => h.places first
  cases op with
  | subtract | divide => exact places_reduction _ _ (fun _ _ _ => rfl) nofun
  | nth => exact places_indexed
  | eval => exact counted evaluation (fun _ _ _ => trivial) fun _ _ => rfl
  | apply => exact counted _ blames_application fun _ _ => rfl
  | funcall => exact counted _ blames_functionCall fun _ _ => rfl
  | symbolFunction => exact counted _ blames_functionOfSymbol fun _ _ => rfl
  | set => exact counted _ blames_assignmentOfValues fun _ _ => rfl
  | add | multiply => exact counted _ (blames_total _ _) fun _ _ => rfl
  | increment | decrement => exact counted _ (blames_stepBy _) fun _ _ => rfl
  | modulo => exact counted _ blames_modulus fun _ _ => rfl
  | equal | different => exact counted _ (blames_equality _) fun _ _ => rfl
  | greater | greaterOrEqual | less | lessOrEqual =>
    exact counted _ (blames_ordered _) fun _ _ => rfl
  | eql => exact counted sameObject (fun _ _ _ => trivial) fun _ _ => rfl
  | boundp => exact counted _ blames_hasValue fun _ _ => rfl
  | fboundp => exact counted _ blames_hasFunction fun _ _ => rfl
  | constantp => exact counted _ blames_constant fun _ _ => rfl
  | list => exact counted listOf (fun _ args => Program.raises_list args) fun _ _ => rfl
  | cons => exact counted pairOf (fun _ _ _ _ => trivial) fun _ _ => rfl
  | car | cadr | caddr | cadddr => exact counted _ (blames_elementAt _) fun _ _ => rfl
  | cdr => exact counted _ blames_restOf fun _ _ => rfl
  | last => exact counted _ blames_lastPair fun _ _ => rfl
  | append => exact counted _ blames_appended fun _ _ => rfl
  | reverse => exact counted _ blames_reversed fun _ _ => rfl
  | length => exact counted _ blames_size fun _ _ => rfl
  | member => exact counted _ blames_memberOf fun _ _ => rfl
  | sort => exact counted _ blames_sorted fun _ _ => rfl
  | print => exact counted printed (fun _ _ _ => trivial) fun _ _ => rfl
  | load => exact counted _ blames_loaded fun _ _ => rfl
  | typeOf | not | atom | listp | consp | numberp | integerp | floatp | stringp | symbolp
  | functionp | zerop | evenp | oddp =>
    exact counted _ (fun _ _ => trivial) fun _ _ => rfl
  | _ => cases ordinary

/-- An error about the type of an argument that a builtin raises itself, among those that are
handed values, comes under the name of the builtin, and an argument of the call is of the
type and is not what was expected. It stands at the position that the error names, counted
from the first argument or, in three builtins, from the second; then the argument that the
error names is right, except that the index of an element is an integer as well when an
integer stands for the list. -/
theorem Builtin.blamed_argument (op : Builtin) (ordinary : op.isSpecial = false) (w : World)
    (f : Function) (args : List Expr) (scope : ScopeId) (m : Machine) (name : String) (i : Nat)
    (expected : Expectation) (received : String) (code : f.code = .builtin op)
    (raised : w.RaisesItself f args scope m
      (.parameters name (.wrongType i expected received))) :
    outcome (w.apply f args scope m) =
        .error (.parameters name (.wrongType i expected received)) ∧
      name = op.name ∧
      Guilty args (op.guiltyPosition args expected i) expected received ∧
      (Guilty args i expected received ↔
        (op.countsFromSecond args expected = true → op = .nth ∧ received = "integer")) := by
  refine ⟨World.outcome_of_raisesItself raised, ?_⟩
  have fails := raised.2
  cases supplied : op.body.supply ⟨op.name, scope⟩ args with
  | error fault =>
    have refuses : f.program w args scope = .fail (.parameters op.name (.arity fault)) := by
      simp only [Function.program, code, supplied]
    rw [refuses] at fails
    cases fails
  | ok p =>
    rw [Function.program_builtin code supplied] at fails
    have own : p.Raises (Site.Blames ⟨op.name, scope⟩ (op.Places args)) :=
      (op.places_body ordinary).supply supplied
    obtain ⟨named, places⟩ := own.of_failsItself (leads_perform _) fails
    exact ⟨named, places.guilty, places.named_iff⟩

/-- Of one, two and a string the error of a difference names the two. -/
theorem Builtin.blamed_argument_behind_number :
    let f : Function := .object ⟨0⟩ (.builtin .subtract)
    let args : List Expr := [.integer 1, .integer 2, .string "two"]
    Builtin.subtract.isSpecial = false ∧ f.code = .builtin .subtract ∧
      World.RaisesItself {} f args Store.root Machine.bare
        (.parameters "-" (.wrongType 1 .number "string")) ∧
      Guilty args 2 .number "string" ∧ ¬ Guilty args 1 .number "string" := by
  intro f args
  have raised : World.RaisesItself {} f args Store.root Machine.bare
      (.parameters "-" (.wrongType 1 .number "string")) := ⟨by decide, rfl⟩
  obtain ⟨-, -, guilty, named⟩ := Builtin.blamed_argument .subtract rfl {} f args
    Store.root Machine.bare "-" 1 .number "string" rfl raised
  refine ⟨rfl, rfl, raised, guilty, fun right => ?_⟩
  cases (named.mp right rfl).1

/-- The error about the string in a difference of one and a string names the one. -/
theorem Builtin.not_blamed_argument_named :
    ¬ ∀ (op : Builtin) (w : World) (f : Function) (args : List Expr) (scope : ScopeId)
      (m : Machine) (name : String) (i : Nat) (expected : Expectation) (received : String),
      op.isSpecial = false → f.code = .builtin op →
      w.RaisesItself f args scope m (.parameters name (.wrongType i expected received)) →
      Guilty args i expected received := by
  intro named
  have raised : World.RaisesItself {} (.object ⟨0⟩ (.builtin .subtract))
      [.integer 1, .string "two"] Store.root Machine.bare
      (.parameters "-" (.wrongType 0 .number "string")) := ⟨by decide, rfl⟩
  obtain ⟨x, found, type, -⟩ := named .subtract {} _ _ _ _ "-" 0 .number "string" rfl rfl raised
  obtain rfl := Option.some.inj found
  exact absurd type (by decide)

end Lisp
