import Lisp.Session

/-!
# Transcripts

What a session lets its user see: printed lines on the output, and on the error
stream call traces and reports of failures, each in the order in which it arose.
-/

namespace Lisp

/-- A piece of text on one of the two streams. -/
inductive Emission where
  | out (text : String)
  | err (text : String)
  deriving DecidableEq, Repr

namespace Emission

def outLine (line : String) : Emission := .out (line ++ "\n")

def errLine (line : String) : Emission := .err (line ++ "\n")

/-- The report of a failure. Errors of reading name their origin, the others
are marked as errors. -/
def report (e : Error) : Emission :=
  if e.isSyntax then errLine e.message else errLine ("Error: " ++ e.message)

/-- All text on the output. -/
def output (es : List Emission) : String :=
  es.foldl (fun text e => match e with
    | out piece => text ++ piece
    | err _ => text) ""

/-- All text on the error stream. -/
def errors (es : List Emission) : String :=
  es.foldl (fun text e => match e with
    | out _ => text
    | err piece => text ++ piece) ""

end Emission

namespace Machine

/-- What has been printed and traced since an earlier state of the machine. -/
def emittedSince (m earlier : Machine) : List Emission :=
  (m.printed.toList.drop earlier.printed.size).map Emission.outLine ++
    (m.trace.toList.drop earlier.trace.size).map fun event =>
      Emission.errLine (" INFO " ++ event.line)

end Machine

/-- The result of one step of a session, and what the step showed. -/
structure Shown (α : Type) where
  result : α
  session : Session
  emissions : List Emission

namespace Session

/-- A step of a session together with what it printed and traced. -/
def shown {α : Type} (s : Session) (step : Session → α × Session) : Shown α :=
  let before := s.machine
  let (result, after) := step s
  ⟨result, after, after.machine.emittedSince before⟩

/-- Evaluates a datum in the root scope. A failure is reported; a value is shown
only if it is asked for. The result tells whether there was a value. -/
def showDatum (s : Session) (showValue : Bool) (d : Datum) : Shown Bool :=
  let step := s.shown fun s => s.evalDatum Store.root d
  match step.result with
  | .ok v =>
    ⟨true, step.session,
      step.emissions ++ if showValue then [Emission.outLine v.text] else []⟩
  | .error e => ⟨false, step.session, step.emissions ++ [Emission.report e]⟩

/-- Evaluates data one after the other, going on after failures. -/
def showData (s : Session) (showValue : Bool) : List Datum → Shown Bool
  | [] => ⟨true, s, []⟩
  | d :: rest =>
    let first := s.showDatum showValue d
    let others := first.session.showData showValue rest
    ⟨first.result && others.result, others.session, first.emissions ++ others.emissions⟩

end Session

end Lisp
