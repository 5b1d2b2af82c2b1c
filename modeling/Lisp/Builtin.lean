/-!
# The names of the builtin library

Each builtin has a primary name and perhaps other names for the same function.
A special form receives its arguments unevaluated; every other builtin is an
ordinary function.
-/

namespace Lisp

/-- The operations of the builtin library. -/
inductive Builtin where
  | quote | function | ifElse | and | or | progn | letParallel | letSequential
  | setq | defvar | defparameter | defconstant | defun | lambda
  | cond | whenTrue | whenFalse
  | eval | apply | funcall | typeOf | symbolFunction | set
  | debugStats | debugCalls | elapsedTime
  | add | subtract | multiply | divide | increment | decrement | modulo
  | equal | different | greater | greaterOrEqual | less | lessOrEqual | not | eql
  | atom | listp | consp | numberp | integerp | floatp | stringp | symbolp | functionp
  | zerop | evenp | oddp | boundp | fboundp | constantp
  | list | cons | car | cdr | cadr | caddr | cadddr | last
  | append | reverse | length | member | nth | sort
  | print | load
  deriving DecidableEq, Repr

namespace Builtin

/-- The name under which errors and printed forms speak of a builtin. -/
def name : Builtin → String
  | quote => "quote"
  | function => "function"
  | ifElse => "if"
  | and => "and"
  | or => "or"
  | progn => "progn"
  | letParallel => "let"
  | letSequential => "let*"
  | setq => "setq"
  | defvar => "defvar"
  | defparameter => "defparameter"
  | defconstant => "defconstant"
  | defun => "defun"
  | lambda => "lambda"
  | cond => "cond"
  | whenTrue => "when"
  | whenFalse => "unless"
  | eval => "eval"
  | apply => "apply"
  | funcall => "funcall"
  | typeOf => "type-of"
  | symbolFunction => "symbol-function"
  | set => "set"
  | debugStats => "debug-stats"
  | debugCalls => "debug-calls"
  | elapsedTime => "elapsed-time"
  | add => "+"
  | subtract => "-"
  | multiply => "*"
  | divide => "/"
  | increment => "1+"
  | decrement => "1-"
  | modulo => "mod"
  | equal => "="
  | different => "/="
  | greater => ">"
  | greaterOrEqual => ">="
  | less => "<"
  | lessOrEqual => "<="
  | not => "not"
  | eql => "eql"
  | atom => "atom"
  | listp => "listp"
  | consp => "consp"
  | numberp => "numberp"
  | integerp => "integerp"
  | floatp => "floatp"
  | stringp => "stringp"
  | symbolp => "symbolp"
  | functionp => "functionp"
  | zerop => "zerop"
  | evenp => "evenp"
  | oddp => "oddp"
  | boundp => "boundp"
  | fboundp => "fboundp"
  | constantp => "constantp"
  | list => "list"
  | cons => "cons"
  | car => "car"
  | cdr => "cdr"
  | cadr => "cadr"
  | caddr => "caddr"
  | cadddr => "cadddr"
  | last => "last"
  | append => "append"
  | reverse => "reverse"
  | length => "length"
  | member => "member"
  | nth => "nth"
  | sort => "sort"
  | print => "print"
  | load => "load"

/-- The other names of a builtin. -/
def aliases : Builtin → List String
  | equal => ["equal"]
  | greater => ["greaterp"]
  | less => ["lessp"]
  | not => ["null"]
  | eql => ["eq"]
  | car => ["first"]
  | cdr => ["rest"]
  | cadr => ["second"]
  | caddr => ["third"]
  | cadddr => ["fourth"]
  | _ => []

/-- All names of a builtin, the primary one first. -/
def names (b : Builtin) : List String := b.name :: b.aliases

/-- Whether a builtin receives its arguments unevaluated. -/
def isSpecial : Builtin → Bool
  | quote | function | ifElse | and | or | progn | letParallel | letSequential
  | setq | defvar | defparameter | defconstant | defun | lambda
  | cond | whenTrue | whenFalse
  | debugStats | debugCalls | elapsedTime => true
  | _ => false

/-- The builtin library, in the order in which it is installed. -/
def all : List Builtin :=
  [quote, function, ifElse, and, or, progn, letParallel, letSequential,
    setq, defvar, defparameter, defconstant, defun, lambda,
    cond, whenTrue, whenFalse,
    eval, apply, funcall, typeOf, symbolFunction, set,
    debugStats, debugCalls, elapsedTime,
    add, subtract, multiply, divide, increment, decrement, modulo,
    equal, different, greater, greaterOrEqual, less, lessOrEqual, not, eql,
    atom, listp, consp, numberp, integerp, floatp, stringp, symbolp, functionp,
    zerop, evenp, oddp, boundp, fboundp, constantp,
    list, cons, car, cdr, cadr, caddr, cadddr, last,
    append, reverse, length, member, nth, sort,
    print, load]

/-- The builtin with a given name, primary or not. -/
def ofName? (name : String) : Option Builtin := all.find? fun b => b.names.contains name

theorem mem_all (b : Builtin) : b ∈ all := by
  cases b <;> decide

end Builtin

end Lisp
