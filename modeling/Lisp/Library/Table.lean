import Lisp.Library.Assignment
import Lisp.Library.Control
import Lisp.Library.Inspection
import Lisp.Library.Numeric
import Lisp.Library.Sequence

/-!
# The builtin library

The body of each builtin. Its arity is that of the body.
-/

namespace Lisp.Builtin

open Library

def body : Builtin → Body
  | quote => quoted
  | function => functionOf
  | ifElse => conditional
  | and => conjunction
  | or => disjunction
  | progn => sequence
  | letParallel => letParallelBody
  | letSequential => letSequentialBody
  | setq => assignment
  | defvar => globalVariable
  | defparameter => globalParameter
  | defconstant => globalConstant
  | defun => functionDefinition
  | lambda => abstraction
  | cond => clauses
  | whenTrue => guarded true
  | whenFalse => guarded false
  | eval => evaluation
  | apply => application
  | funcall => functionCall
  | typeOf => typeSymbol
  | symbolFunction => functionOfSymbol
  | set => assignmentOfValues
  | debugStats => countedEvaluation
  | debugCalls => tracedEvaluation
  | elapsedTime => timedEvaluation
  | add => total Number.add 0
  | subtract => reduction Number.subtract 0
  | multiply => total Number.multiply 1
  | divide => reduction Number.divide 1
  | increment => stepBy Number.add
  | decrement => stepBy Number.subtract
  | modulo => modulus
  | equal => equality true
  | different => equality false
  | greater => ordered (· == .gt)
  | greaterOrEqual => ordered (· != .lt)
  | less => ordered (· == .lt)
  | lessOrEqual => ordered (· != .gt)
  | not => predicate Sexp.isNil
  | eql => sameObject
  | atom => predicate Sexp.isAtom
  | listp => predicate Sexp.isList
  | consp => predicate Sexp.isPair
  | numberp => predicate Sexp.isNumber
  | integerp => predicate isInteger
  | floatp => predicate isFloat
  | stringp => predicate isString
  | symbolp => predicate isSymbol
  | functionp => predicate isFunction
  | zerop => predicate isZero
  | evenp => predicate (hasParity 0)
  | oddp => predicate (hasParity 1)
  | boundp => hasValue
  | fboundp => hasFunction
  | constantp => constant
  | list => listOf
  | cons => pairOf
  | car => elementAt 0
  | cdr => restOf
  | cadr => elementAt 1
  | caddr => elementAt 2
  | cadddr => elementAt 3
  | last => lastPair
  | append => appended
  | reverse => reversed
  | length => size
  | member => memberOf
  | nth => indexed
  | sort => sorted
  | print => printed
  | load => loaded

/-- The argument counts that a builtin accepts. -/
def arity (b : Builtin) : Arity := b.body.arity

end Lisp.Builtin
