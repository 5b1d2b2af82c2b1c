import Lisp.Arity
import Lisp.Sexp.Basic
import Lisp.Text.Place

/-!
# Errors

An error is a cause, and its text is a function of the cause. Errors of reading
come in two kinds: a text that nothing appended to it can mend, and a text that
ends too early. The others arise during evaluation. Values that an error speaks
of are kept as their printed form.
-/

namespace Lisp

/-- Why no continuation makes a text readable. -/
inductive Malformation where
  | unexpectedEscape (c : Char)
  | unmatchedClose
  | missingOperand (mark : Mark)
  | missingLeft
  | tooDeep (limit : Nat)
  | severalForms
  | other (message : String)
  deriving DecidableEq, Repr

/-- What was still open at the end of a text. -/
inductive Incompletion where
  | string
  | escape
  | run
  | list
  | operand (mark : Mark)
  | other (message : String)
  deriving DecidableEq, Repr

/-- An error of reading, at a position of the text. -/
inductive ReadError where
  | malformed (position : Position) (cause : Malformation)
  | unterminated (position : Position) (cause : Incompletion)
  deriving DecidableEq, Repr

/-- What an argument was expected to be. -/
inductive Expectation where
  | symbol
  | integer
  | number
  | string
  | list
  | properList
  | function
  deriving DecidableEq, Repr

/-- What is wrong with the arguments of one function. -/
inductive Misuse where
  | arity (fault : ArityFault)
  | wrongType (index : Nat) (expected : Expectation) (received : String)
  | missing (index : Nat)
  | undefinedFunction (name : String)
  | oddArguments
  | malformedBinding (shown : String)
  | malformedClause (shown : String)
  | parameterList (shown : String)
  | parameterName (received : String)
  | incomparable (left right : String)
  | negativeIndex (index : Int64)
  | custom (message : String)
  | verbatim (message : String)
  deriving DecidableEq, Repr

/-- Failures of evaluation that no single function is to blame for. -/
inductive RuntimeFault where
  | boundToNonFunction (name shown : String)
  | undefinedFunction (name : String)
  | notFunction (shown : String)
  | improperArguments (shown : String)
  | constantModified (name : String)
  | divisionByZero (operator : String)
  | integerOverflow (operator : String)
  | other (message : String)
  deriving DecidableEq, Repr

/-- Why a file could not be read as text. -/
inductive FileFault where
  | notFound
  | directory
  | invalidText
  | other (message : String)
  deriving DecidableEq, Repr

/-- Every way in which reading and evaluating can fail. -/
inductive Error where
  | unreadable (origin : String) (failure : ReadError)
  | runtime (fault : RuntimeFault)
  | symbolNotFound (name : String)
  | parameters (function : String) (misuse : Misuse)
  | stackOverflow (depth : Nat)
  | file (path : String) (fault : FileFault)
  | inputOutput (message : String)
  deriving DecidableEq, Repr

def Mark.missingText : Mark → String
  | .quote => "Missing expression after a quote"
  | .function => "Missing expression after a getfunc"

def Malformation.message : Malformation → String
  | unexpectedEscape c => "Unexpected escaped char: " ++ String.singleton c
  | unmatchedClose => "Found closing parenthesis without matching opening parenthesis"
  | missingOperand mark => mark.missingText
  | missingLeft => "left expression required for an assoc"
  | tooDeep limit => "Expression too deeply nested (max depth: " ++ toString limit ++ ")"
  | severalForms => "Expected to have a single expression"
  | other message => message

def Incompletion.message : Incompletion → String
  | string => "Expected double quote at the end of the string"
  | escape => "Expected character after escape char"
  | run => "Expected pipe at the end of the identifier"
  | list => "Unbalanced list expression"
  | operand mark => mark.missingText
  | other message => message

namespace ReadError

def position : ReadError → Position
  | malformed position _ => position
  | unterminated position _ => position

def message : ReadError → String
  | malformed _ cause => cause.message
  | unterminated _ cause => cause.message

end ReadError

def Expectation.message : Expectation → String
  | symbol => "a symbol"
  | integer => "an integer"
  | number => "a number"
  | string => "a string"
  | list => "a list"
  | properList => "a proper list"
  | function => "a symbol or function object"

/-- The text of a misuse, after the name of the function where it is named. -/
def Misuse.message (function : String) : Misuse → String
  | arity fault => function ++ fault.message
  | wrongType index expected received =>
    function ++ ": expected arg #" ++ toString index ++ " to be " ++ expected.message
      ++ " but received " ++ received
  | missing index => function ++ ": missing arg #" ++ toString index
  | undefinedFunction name => function ++ ": Undefined function " ++ name
  | oddArguments => function ++ ": odd number of arguments"
  | malformedBinding shown => function ++ ": malformed binding " ++ shown
  | malformedClause shown => function ++ ": malformed clause " ++ shown
  | parameterList shown => function ++ ": expected a parameter list but received " ++ shown
  | parameterName received =>
    function ++ ": expected parameter names to be symbols but received " ++ received
  | incomparable left right => function ++ ": cannot compare " ++ left ++ " with " ++ right
  | negativeIndex index =>
    function ++ ": index must be non-negative but received " ++ toString index.toInt
  | custom message => function ++ ": " ++ message
  | verbatim message => message

def RuntimeFault.message : RuntimeFault → String
  | boundToNonFunction name shown =>
    "symbol '" ++ name ++ "' is bound to " ++ shown ++ ", which is not a function"
  | undefinedFunction name => "Undefined function " ++ name
  | notFunction shown => shown ++ " is not a function"
  | improperArguments shown => "function call arguments should be a proper list: " ++ shown
  | constantModified name => "Cannot modify constant " ++ name
  | divisionByZero operator => operator ++ ": division by zero"
  | integerOverflow operator => operator ++ ": integer overflow"
  | other message => message

def FileFault.message : FileFault → String
  | notFound => "No such file or directory (os error 2)"
  | directory => "Is a directory (os error 21)"
  | invalidText => "stream did not contain valid UTF-8"
  | other message => message

namespace Error

/-- What the text of an error of evaluation says after the kind of error. -/
def detail : Error → String
  | unreadable _ failure => failure.message
  | runtime fault => fault.message
  | symbolNotFound name => name
  | parameters function misuse => misuse.message function
  | stackOverflow depth => toString depth
  | file path fault => path ++ ": " ++ fault.message
  | inputOutput message => message

/-- The text of an error. Errors of reading begin with the origin of the text,
the line and the column. -/
def message (e : Error) : String :=
  match e with
  | unreadable origin failure =>
    origin ++ ":" ++ toString failure.position.line ++ ":" ++ toString failure.position.col
      ++ " - error: " ++ failure.message
  | runtime _ => "Runtime error: " ++ e.detail
  | symbolNotFound _ => "Symbol not found: " ++ e.detail
  | parameters _ _ => e.detail
  | stackOverflow _ => "Stack overflow: call depth exceeded " ++ e.detail
  | file _ _ => "I/O error: " ++ e.detail
  | inputOutput _ => "I/O error: " ++ e.detail

def position? : Error → Option Position
  | unreadable _ failure => some failure.position
  | _ => none

/-- Errors of reading, of both kinds. -/
def isSyntax : Error → Bool
  | unreadable _ _ => true
  | _ => false

/-- Errors of reading that more text may mend. -/
def isUnterminated : Error → Bool
  | unreadable _ (.unterminated _ _) => true
  | _ => false

/-- Errors that arise only when an expression is evaluated. -/
def isRuntime (e : Error) : Bool := !e.isSyntax

end Error

end Lisp
