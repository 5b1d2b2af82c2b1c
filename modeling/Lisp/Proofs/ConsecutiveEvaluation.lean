import Lisp.Proofs.ConsecutiveTexts
import Lisp.Proofs.Termination
import Lisp.Session

/-!
# Evaluating one text after the other

The forms of a text are evaluated as they are read, so that an error of reading comes after
the effects of the forms before it. A program that goes on with the value of another one
nests calls as deeply as if it were run by itself, because no program changes the depth at
which it was started.

Evaluating two texts at once is therefore evaluating the first and, if it succeeded, the
second in the session that the first has left. Only the position of an error of reading
tells that something stood above. The value is that of the first text if the second has no
form.
-/

namespace Lisp

open Text

def Error.moved (f : Position → Position) : Error → Error
  | unreadable origin failure => unreadable origin (failure.moved f)
  | e => e

namespace Program

variable (origin : String) (error? : Option ReadError) (last : Expr)

theorem evalForms_append (as bs : List Form) :
    evalForms origin error? last (as ++ bs) =
      (evalForms origin none last as).bind fun v => evalForms origin error? v bs := by
  induction as generalizing last with
  | nil => rfl
  | cons form as ih =>
    rw [List.cons_append, evalForms, evalForms]
    simp only [ih]
    rfl

/-- Where a form stands has no part in its evaluation. -/
theorem evalForms_moved (f : Position → Position) (forms : List Form) :
    evalForms origin error? last (forms.map (.moved f)) = evalForms origin error? last forms := by
  induction forms generalizing last with
  | nil => rfl
  | cons form forms ih =>
    rw [List.map_cons, evalForms, evalForms]
    simp only [ih]
    rfl

end Program

/-- A program leaves the depth of calls as it was, so that what goes on with its value has
as many calls at its disposal. -/
theorem World.run_bind (w : World) (p : Program Expr) (f : Expr → Program Expr) :
    w.run (p.bind f) = w.run p >>= fun v => w.run (f v) := by
  funext m
  have kept := (computes_run (computes_applyWithin w _) p [] m rfl).2
  rw [World.run, Program.run_bind]
  cases result : p.run w (applyWithin w (w.maxDepth - m.depth)) m with
  | ok v m' =>
    have whole : w.run p m = .ok v m' := result
    have depth : m'.depth = m.depth := by
      rw [result] at kept
      exact kept
    rw [bind_of_ok result, bind_of_ok whole, World.run, depth]
  | error e m' =>
    have whole : w.run p m = .error e m' := result
    rw [bind_of_error result, bind_of_error whole]

namespace Session

theorem run_bind (s : Session) (p : Program Expr) (f : Expr → Program Expr) :
    s.run (p.bind f) =
      match s.run p with
      | (.ok v, reached) => reached.run (f v)
      | (.error e, reached) => (.error e, reached) := by
  simp only [run, perform, World.run_bind]
  cases result : s.world.run p s.machine with
  | ok v m => rw [bind_of_ok result]
  | error e m => rw [bind_of_error result]

/-- What ended the reading of forms counts only if all of them have values. -/
theorem run_evalForms (s : Session) (origin : String) (error? : Option ReadError) (last : Expr)
    (forms : List Form) :
    s.run (Program.evalForms origin error? last forms) =
      match s.run (Program.evalForms origin none last forms), error? with
      | (.ok _, reached), some e => (.error (.unreadable origin e), reached)
      | outcome, _ => outcome := by
  have ended := Program.evalForms_append origin error? last forms []
  rw [List.append_nil] at ended
  rw [ended, run_bind]
  match s.run (Program.evalForms origin none last forms), error? with
  | (.ok v, reached), some e => rfl
  | (.ok v, reached), none => rfl
  | (.error e, reached), _ => rfl

/-- What becomes of a text on its own when another value stands for `nil`, and an error of
its reading is elsewhere. -/
theorem run_evalForms_moved (s : Session) (origin : String) (error? : Option ReadError)
    (value : Expr) (f : Position → Position) (forms : List Form) :
    let moved := s.run (Program.evalForms origin (error?.map (.moved f)) value forms)
    let own := s.run (Program.evalForms origin error? .nil forms)
    moved.2 = own.2 ∧
      match own.1 with
      | .ok v => moved.1 = .ok (if forms.isEmpty then value else v)
      | .error e =>
        moved.1 = .error
          (if (s.run (Program.evalForms origin none .nil forms)).1.isOk then e.moved f else e) := by
  intro moved own
  cases forms with
  | nil => cases error? <;> exact ⟨rfl, rfl⟩
  | cons form rest =>
    have movedEq : moved = _ := run_evalForms s origin (error?.map (.moved f)) value (form :: rest)
    have ownEq : own = _ := run_evalForms s origin error? .nil (form :: rest)
    have same : Program.evalForms origin none value (form :: rest) =
        Program.evalForms origin none .nil (form :: rest) := rfl
    rw [movedEq, ownEq, same]
    match s.run (Program.evalForms origin none .nil (form :: rest)), error? with
    | (.ok v, reached), some e => exact ⟨rfl, rfl⟩
    | (.ok v, reached), none => exact ⟨rfl, rfl⟩
    | (.error e, reached), some _ => exact ⟨rfl, rfl⟩
    | (.error e, reached), none => exact ⟨rfl, rfl⟩

/-- Evaluates the forms of a text, whatever ended its reading. -/
def evalForms (s : Session) (text : String) : Except Error Expr × Session :=
  s.run (Program.evalForms defaultOrigin none .nil (Reading.ofText text).forms)

/-- Evaluating a text below the lines of another one is evaluating the other one and, if it
succeeded, the text. The session is then the same and so is the outcome, except that an
error of reading is further below, and that the value above is the value of both if the
text has no form. -/
theorem evalAll_below (s : Session) {first : String}
    (complete : (Reading.ofText first).error? = none) (second : String) :
    let whole := s.evalAll (first ++ "\n" ++ second)
    match s.evalAll first with
    | (.error e, reached) => whole = (.error e, reached)
    | (.ok above, reached) =>
      let own := reached.evalAll second
      whole.2 = own.2 ∧
        match own.1 with
        | .ok v => whole.1 = .ok (if (Reading.ofText second).forms.isEmpty then above else v)
        | .error e =>
          whole.1 = .error
            (if (reached.evalForms second).1.isOk then e.moved (.below (first ++ "\n").toList)
              else e) := by
  let r := Reading.ofText second
  let moved : Position → Position := .below (first ++ "\n").toList
  obtain ⟨contained, same⟩ := Reading.selfContained_newline complete
  have begun : s.evalAll first = s.evalForms first := by
    rw [evalAll, Program.evalText, complete]
    rfl
  have whole : s.evalAll (first ++ "\n" ++ second) =
      match s.evalForms first with
      | (.ok above, reached) =>
        reached.run (Program.evalForms defaultOrigin (r.error?.map (.moved moved)) above r.forms)
      | (.error e, reached) => (.error e, reached) := by
    rw [evalAll, Program.evalText, contained.ofText_append, same]
    simp only [Program.evalForms_append, Program.evalForms_moved, run_bind]
    rfl
  rw [begun, whole]
  match s.evalForms first with
  | (.error e, reached) => rfl
  | (.ok above, reached) =>
    exact run_evalForms_moved reached defaultOrigin r.error? above moved r.forms

/-- A parenthesis that was never opened is reported in its line also below a comment. -/
theorem evalAll_below_comment :
    (Reading.ofText "; above").error? = none ∧
      (({} : Session).evalAll ("; above" ++ "\n" ++ "1 )")).1 =
        .error (.unreadable defaultOrigin (.malformed ⟨10, 2, 3⟩ .unmatchedClose)) := by
  have complete : (Reading.ofText "; above").error? = none := by decide +kernel
  have noForm : (Reading.ofText "; above").forms = [] :=
    List.isEmpty_iff.mp (by decide +kernel)
  have above : ({} : Session).evalAll "; above" = (.ok .nil, {}) := by
    rw [evalAll, Program.evalText, complete, noForm]
    rfl
  have joined := evalAll_below {} complete "1 )"
  rw [above] at joined
  have own : (({} : Session).evalAll "1 )").1 =
      .error (.unreadable defaultOrigin (.malformed ⟨2, 1, 3⟩ .unmatchedClose)) := rfl
  have evaluated : (({} : Session).evalForms "1 )").1.isOk = true := rfl
  have outcome := joined.2
  rw [own] at outcome
  simp only [evaluated, if_true] at outcome
  exact ⟨complete, outcome⟩

end Session

end Lisp
