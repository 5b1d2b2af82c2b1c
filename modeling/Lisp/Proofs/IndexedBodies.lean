import Lisp.Evaluation

/-!
# Builtins that look for their arguments by position

The builtins once more, as they read with a list of arguments at hand: an argument is
looked for at its position, a part of the list from one position to another, and a loop
goes over positions. Such a look may be out of range, which is the end of everything.
Beside them stands a table of the argument counts that each builtin declares; nothing
here ties the positions that a builtin uses to the counts that it declares.

A check of an argument asks whether the argument is there and reports it if it is not.
Only the looks without a check can be out of range.
-/

namespace Lisp

/-- A look at a position of a list that is shorter. -/
structure OutOfRange where
  position : Nat
  length : Nat

/-- A program that may look for an argument where there is none. -/
abbrev Positional (α : Type) := ExceptT OutOfRange Program α

namespace Positional

/-- The item at a position. -/
def item (es : List Expr) (i : Nat) : Positional Expr :=
  match es[i]? with
  | some e => return e
  | none => throw ⟨i, es.length⟩

/-- The items from a position on, which may be the end. -/
def itemsFrom (es : List Expr) (i : Nat) : Positional (List Expr) :=
  if i ≤ es.length then return es.drop i else throw ⟨i, es.length⟩

/-- The items from one position up to another. -/
def itemsBetween (es : List Expr) (i j : Nat) : Positional (List Expr) :=
  if i ≤ j ∧ j ≤ es.length then return (es.take j).drop i else throw ⟨j, es.length⟩

/-- The position of the last item, which an empty list does not have. -/
def lastPosition (es : List Expr) : Positional Nat :=
  if 1 ≤ es.length then return es.length - 1 else throw ⟨0, es.length⟩

end Positional

namespace Site

/-- The checks of an argument, by its position. -/
def symbolAt (site : Site) (args : List Expr) (i : Nat) : Except Error String := do
  site.symbol i (← site.argument args i)

def integerAt (site : Site) (args : List Expr) (i : Nat) : Except Error Int64 := do
  site.integer i (← site.argument args i)

def stringAt (site : Site) (args : List Expr) (i : Nat) : Except Error String := do
  site.string i (← site.argument args i)

def listAt (site : Site) (args : List Expr) (i : Nat) : Except Error (List Expr) := do
  site.list i (← site.argument args i)

def functionAt (site : Site) (args : List Expr) (i : Nat) : Program Function := do
  site.function i (← site.argument args i)

end Site

/-- A builtin that is handed the whole list of its arguments. -/
abbrev IndexedBody := Site → List Expr → Positional Expr

namespace Indexed

open Positional

/-- A number among the arguments, without a check that it is there. -/
def numberAt (site : Site) (args : List Expr) (i : Nat) : Positional Number := do
  Library.number site i (← item args i)

section Control

def quoted : IndexedBody := fun _ args => item args 0

def functionOf : IndexedBody := fun site args => do
  let e ← item args 0
  let target ← (if e.isPair then do site.eval (← item args 0) else item args 0 : Positional Expr)
  let f ← site.functionAt [target] 0
  match f.code with
  | .lambda parameters body =>
    return .function (← Program.newFunction (.closure parameters body site.scope))
  | _ => return .function f

def conditional : IndexedBody := fun site args => do
  if (← site.eval (← item args 0)).isTrue then site.eval (← item args 1)
  else match args[2]? with
    | some no => site.eval no
    | none => return .nil

def letParallel : IndexedBody := fun site args => do
  let bs ← site.listAt args 0
  let values ← Library.initialValues site bs
  let inner ← Program.enter site.scope values
  Program.evalBody inner (← itemsFrom args 1)

def letSequential : IndexedBody := fun site args => do
  let bs ← site.listAt args 0
  let inner ← Library.nestedScope site site.scope bs
  Program.evalBody inner (← itemsFrom args 1)

def functionDefinition : IndexedBody := fun site args => do
  let name ← site.symbolAt args 0
  let ps ← Library.parameters site (← item args 1)
  let f ← Program.newFunction (.named name ps (← itemsFrom args 2))
  Program.defineFunction name (.function f)
  item args 0

def abstraction : IndexedBody := fun site args => do
  let ps ← Library.parameters site (← item args 0)
  return .function (← Program.newFunction (.lambda ps (← itemsFrom args 1)))

/-- The test of a clause is its first form, and its body are the others. -/
def clausesFrom (site : Site) : List Expr → Positional Expr
  | [] => return .nil
  | clause :: rest =>
    match clause.properItems?.filter fun forms => !forms.isEmpty with
    | some forms => do
      let v ← site.eval (← item forms 0)
      if v.isTrue then
        if forms.length == 1 then return v
        else Program.evalBody site.scope (← itemsFrom forms 1)
      else clausesFrom site rest
    | none => Program.fail (site.misuse (.malformedClause clause.text))

def guarded (expected : Bool) : IndexedBody := fun site args => do
  if (← site.eval (← item args 0)).isTrue == expected then
    Program.evalBody site.scope (← itemsFrom args 1)
  else return .nil

def evaluation : IndexedBody := fun site args => do site.eval (← item args 0)

def application : IndexedBody := fun site args => do
  let f ← site.functionAt args 0
  let last ← lastPosition args
  let first ← itemsBetween args 1 last
  let spread ← site.listAt args last
  site.call f (first ++ spread)

def functionCall : IndexedBody := fun site args => do
  let f ← site.functionAt args 0
  site.call f (← itemsFrom args 1)

end Control

section Assignment

/-- Takes the arguments two by two; `value` is what the second of each two stands for. -/
def assignments (value : Site → Expr → Program Expr) : IndexedBody := fun site args => do
  if args.length % 2 = 0 then
    (List.range' 0 ((args.length + 1) / 2) 2).foldlM (fun _ i => do
      let name ← site.symbolAt args i
      let v ← value site (← item args (i + 1))
      Program.assign site.scope name v
      return v) .nil
  else Program.fail (site.misuse .oddArguments)

def globalVariable : IndexedBody := fun site args => do
  let name ← site.symbolAt args 0
  match args[1]? with
  | none => item args 0
  | some e =>
    if (← Program.valueOf Store.root name).isSome then item args 0
    else
      let v ← site.eval e
      Program.defineGlobal name v
      item args 0

/-- Stores the value of the second argument under the name that the first one is. -/
def globalDefinition (store : String → Expr → Program Unit) : IndexedBody := fun site args => do
  let name ← site.symbolAt args 0
  let v ← site.eval (← item args 1)
  store name v
  item args 0

end Assignment

section Inspection

/-- A question about the only argument. -/
def ofValue (answer : Expr → Expr) : IndexedBody := fun _ args => do
  return answer (← item args 0)

def functionOfSymbol : IndexedBody := fun site args => do
  let name ← site.symbolAt args 0
  match ← Program.functionOf site.scope name with
  | some f => return f
  | none => Program.fail (.runtime (.undefinedFunction name))

def countedEvaluation : IndexedBody := fun site args => do
  let before ← Program.counters
  let v ← site.eval (← item args 0)
  let after ← Program.counters
  let counted ← Program.place (after.since before).toDatum
  Program.list [v, counted]

def tracedEvaluation : IndexedBody := fun site args => do
  let e ← item args 0
  (Program.traced site.scope e .done : Program Expr)

def timedEvaluation : IndexedBody := fun site args => do
  let v ← site.eval (← item args 0)
  let milliseconds ← Program.elapsed
  Program.list [v, .float milliseconds]

def loaded : IndexedBody := fun site args => do
  let path ← site.stringAt args 0
  let text ← Program.file path
  Program.evalText path text

end Inspection

section Numeric

variable (op : Number → Number → Except ArithmeticFault Number) (neutral : Int64)

/-- Combines a number with all arguments. -/
def accumulate (site : Site) (acc : Number) (args : List Expr) : Positional Number :=
  (List.range' 0 args.length).foldlM (fun acc i => do
    Library.arithmetic site (op acc (← numberAt site args i))) acc

def total : IndexedBody := fun site args => do
  return (← accumulate op site (.integer neutral) args).toExpr

def reduction : IndexedBody := fun site args => do
  let n ← numberAt site args 0
  if args.length == 1 then return (← Library.arithmetic site (op (.integer neutral) n)).toExpr
  else return (← accumulate op site n (← itemsFrom args 1)).toExpr

def stepBy : IndexedBody := fun site args => do
  let n ← numberAt site args 0
  return (← Library.arithmetic site (op n (.integer 1))).toExpr

def modulus : IndexedBody := fun site args => do
  let x ← numberAt site args 0
  let y ← numberAt site args 1
  return (← Library.arithmetic site (x.modulo y)).toExpr

end Numeric

section Relation

/-- Every two neighbours, as lists of two items. -/
def windows (es : List Expr) : List (List Expr) :=
  (List.range (es.length - 1)).map fun i => (es.drop i).take 2

def chained (holds : Expr → Expr → Except Error Bool) : List (List Expr) → Positional Bool
  | [] => return true
  | window :: rest => do
    if ← holds (← item window 0) (← item window 1) then chained holds rest else return false

def comparison (holds : Site → Expr → Expr → Except Error Bool) : IndexedBody :=
  fun site args => do return .bool (← chained (holds site) (windows args))

def sameObject : IndexedBody := fun _ args => do
  return .bool ((← item args 0).eql (← item args 1))

/-- A question about the binding of a name. -/
def bindingOf (ask : ScopeId → String → Program (Option Expr)) : IndexedBody := fun site args => do
  let name ← site.symbolAt args 0
  return .bool (← ask site.scope name).isSome

def constant : IndexedBody := fun site args => do
  match ← item args 0 with
  | .symbol name => return .bool (← Program.isConstant site.scope name)
  | .pair .. => return .bool false
  | _ => return .bool true

end Relation

section Sequence

def pairOf : IndexedBody := fun _ args => do Program.cons (← item args 0) (← item args 1)

/-- An element of the first of some items. -/
def elementOfFirst (site : Site) (es : List Expr) (index : Nat) : Positional Expr := do
  Library.element site index (← item es 0)

def elementAt (index : Nat) : IndexedBody := fun site args => elementOfFirst site args index

def restOf : IndexedBody := fun site args => do
  match ← item args 0 with
  | .pair _ _ _ cdr => return cdr
  | e => if e.isNil then return .nil else Program.fail (site.wrongType 0 .list e)

def lastPair : IndexedBody := fun site args => do
  let e ← item args 0
  if e.isList then return e.lastPair
  else Program.fail (site.wrongType 0 .list e)

def appended : IndexedBody := fun site args => do
  match args.getLast? with
  | none => return .nil
  | some tail =>
    let items ← (List.range' 0 args.dropLast.length).foldlM (fun items i => do
      return items ++ (← site.listAt args i)) []
    Program.listWithTail items tail

def reversed : IndexedBody := fun site args => do
  let items ← site.listAt args 0
  Program.list items.reverse

def size : IndexedBody := fun site args => do
  match ← item args 0 with
  | .string text => return .integer (Int64.ofNat text.length)
  | _ =>
    let items ← site.listAt args 0
    return .integer (Int64.ofNat items.length)

/-- Goes down a list, with a look at the first argument at each pair. -/
def tailFrom (args : List Expr) : Expr → Positional Expr
  | e@(.pair _ _ car cdr) => do
    if car.equal (← item args 0) then return e else tailFrom args cdr
  | _ => return .nil

def memberOf : IndexedBody := fun site args => do
  let e ← item args 1
  if e.isList then tailFrom args e
  else Program.fail (site.wrongType 1 .list e)

def indexed : IndexedBody := fun site args => do
  let n ← site.integerAt args 0
  if n.toInt < 0 then Program.fail (site.misuse (.negativeIndex n))
  else elementOfFirst site (← itemsFrom args 1) n.toInt.toNat

def sorted : IndexedBody := fun site args => do
  let items ← site.listAt args 0
  match args[1]? with
  | none =>
    let result ← (mergeSort (Library.naturallyLess site) items : Except Error (List Expr))
    Program.list result
  | some _ =>
    let f ← site.functionAt args 1
    let result ← (mergeSort (Library.lessBy site f) items : Program (List Expr))
    Program.list result

end Sequence

end Indexed

namespace Builtin

open Indexed

/-- What a builtin does with the list of its arguments, whatever their number. -/
def indexed : Builtin → IndexedBody
  | quote => quoted
  | function => functionOf
  | ifElse => conditional
  | and => fun site args => Library.conjunctionFrom site (.bool true) args
  | or => fun site args => Library.disjunctionFrom site args
  | progn => fun site args => Program.evalBody site.scope args
  | letParallel => Indexed.letParallel
  | letSequential => Indexed.letSequential
  | setq => assignments fun site e => site.eval e
  | defvar => globalVariable
  | defparameter => globalDefinition Program.defineGlobal
  | defconstant => globalDefinition Program.defineConstant
  | defun => functionDefinition
  | lambda => abstraction
  | cond => clausesFrom
  | whenTrue => guarded true
  | whenFalse => guarded false
  | eval => evaluation
  | apply => application
  | funcall => functionCall
  | typeOf => ofValue fun e => .symbol e.typeName
  | symbolFunction => functionOfSymbol
  | set => assignments fun _ v => pure v
  | debugStats => countedEvaluation
  | debugCalls => tracedEvaluation
  | elapsedTime => timedEvaluation
  | add => total Number.add 0
  | subtract => reduction Number.subtract 0
  | multiply => total Number.multiply 1
  | divide => reduction Number.divide 1
  | increment => stepBy Number.add
  | decrement => stepBy Number.subtract
  | modulo => modulus
  | equal => comparison fun _ a b => .ok (a.equal b == true)
  | different => comparison fun _ a b => .ok (a.equal b == false)
  | greater => comparison fun site a b => (Library.order site a b).map (· == .gt)
  | greaterOrEqual => comparison fun site a b => (Library.order site a b).map (· != .lt)
  | less => comparison fun site a b => (Library.order site a b).map (· == .lt)
  | lessOrEqual => comparison fun site a b => (Library.order site a b).map (· != .gt)
  | not => ofValue fun e => .bool e.isNil
  | eql => sameObject
  | atom => ofValue fun e => .bool e.isAtom
  | listp => ofValue fun e => .bool e.isList
  | consp => ofValue fun e => .bool e.isPair
  | numberp => ofValue fun e => .bool e.isNumber
  | integerp => ofValue fun e => .bool (Library.isInteger e)
  | floatp => ofValue fun e => .bool (Library.isFloat e)
  | stringp => ofValue fun e => .bool (Library.isString e)
  | symbolp => ofValue fun e => .bool (Library.isSymbol e)
  | functionp => ofValue fun e => .bool (Library.isFunction e)
  | zerop => ofValue fun e => .bool (Library.isZero e)
  | evenp => ofValue fun e => .bool (Library.hasParity 0 e)
  | oddp => ofValue fun e => .bool (Library.hasParity 1 e)
  | boundp => bindingOf Program.valueOf
  | fboundp => bindingOf Program.functionOf
  | constantp => constant
  | list => fun _ args => Program.list args
  | cons => pairOf
  | car => elementAt 0
  | cdr => restOf
  | cadr => elementAt 1
  | caddr => elementAt 2
  | cadddr => elementAt 3
  | last => lastPair
  | append => appended
  | reverse => reversed
  | length => size
  | member => memberOf
  | nth => Indexed.indexed
  | sort => sorted
  | print => fun _ args => do
    Program.print (" ".intercalate (args.map Sexp.text))
    return args.getLast?.getD .nil
  | load => loaded

/-- The argument counts that a builtin declares. -/
def declared : Builtin → Arity
  | and | or | progn | setq | cond | set | add | multiply | list | append | print => .any
  | letParallel | letSequential | lambda | whenTrue | whenFalse | funcall | subtract | divide
  | equal | different | greater | greaterOrEqual | less | lessOrEqual => .atLeast 1
  | defun | apply => .atLeast 2
  | ifElse => .range 2 3
  | defvar | sort => .range 1 2
  | defparameter | defconstant | modulo | eql | cons | member | nth => .exact 2
  | _ => .exact 1

/-- What a builtin declares are the counts that its body can be supplied with. -/
theorem declared_eq_arity (op : Builtin) : op.declared = op.arity := by
  cases op <;> rfl

end Builtin

end Lisp
