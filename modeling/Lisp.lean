import Lisp.Main
import Lisp.Proofs.Completion
import Lisp.Proofs.Grammar
import Lisp.Proofs.GrammarReading
import Lisp.Proofs.Numerals
import Lisp.Proofs.Spelling
import Lisp.Proofs.RoundTrip
import Lisp.Proofs.Stepping
import Lisp.Proofs.Termination
import Lisp.Proofs.OpenDerivation
import Lisp.Proofs.TrailingDots
import Lisp.Proofs.CallLimit
import Lisp.Proofs.Constants
import Lisp.Proofs.Isolation
import Lisp.Proofs.RegisterHistories
import Lisp.Proofs.SourcePositions
import Lisp.Proofs.ConsecutiveEvaluation
import Lisp.Proofs.ConsoleLines
import Lisp.Proofs.TraceBlindness
import Lisp.Proofs.TraceLines
import Lisp.Proofs.CallDepth
import Lisp.Proofs.ArgumentCounts
import Lisp.Proofs.Counting
import Lisp.Proofs.StringLiterals
import Lisp.Proofs.AtomKinds
import Lisp.Proofs.StableSorting
import Lisp.Proofs.ConstantNames
import Lisp.Proofs.Comparability
import Lisp.Proofs.IntegerDivision
import Lisp.Proofs.FloatPromotion
import Lisp.Proofs.BlamedArguments
import Lisp.Proofs.WaysToCall
import Lisp.Proofs.Conditionals
import Lisp.Proofs.NestedBindings
import Lisp.Proofs.Equality
import Lisp.Proofs.ReadShapes
import Lisp.Proofs.Scripts
import Lisp.Proofs.ClosedRuns
