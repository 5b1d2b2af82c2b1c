import Lisp.Proofs.Completion
import Lisp.CommandLine

/-!
# Scripts on the command line

Scripts are evaluated form by form, and a form that fails stops neither its script nor the
scripts after it. Only an error of reading ends a script, and what stands behind it is not
read. All forms are evaluated by one session in the root scope, those of the scripts first
and the expression of the command line last.

The exit code says whether all of this went well: no file was missing, nothing was
unreadable and every evaluation had a value.
-/

namespace Lisp

namespace Reading

/-- What stands behind an error that more text cannot mend has no part in the reading. -/
theorem ofText_append_of_malformed {text : String} {position : Position} {cause : Malformation}
    (malformed : (ofText text).error? = some (.malformed position cause)) (more : String) :
    ofText (text ++ more) = ofText text := by
  have whole := ofText_append text ""
  rw [String.append_empty] at whole
  rcases error?_ofText text with ⟨e, failed, -⟩ | ⟨-, e, failed, -⟩ | ⟨-, -, ended⟩
  · rw [whole, ofText_append, ofTokens_precededBy, ofTokens_precededBy]
    simp only [Reader.feedAll_of_error failed, failed]
    rfl
  · rw [whole, ofText_append, failed]
    simp [Mode.tokensOf, Mode.scan_failed, Mode.finish]
  · obtain ⟨_, _, different⟩ := ended _ malformed
    cases different

/-- A text has a single expression if it is read without an error and has one form at most. -/
theorem isOk_single (r : Reading) :
    r.single.isOk = true ↔ r.error? = none ∧ r.forms.length ≤ 1 := by
  obtain ⟨forms, error?⟩ := r
  match forms, error? with
  | [], none => simp [single, Except.isOk, Except.toBool]
  | [form], none => simp [single, Except.isOk, Except.toBool]
  | _ :: second :: _, error? => simp [single, Except.isOk, Except.toBool]
  | [], some e => simp [single, Except.isOk, Except.toBool]
  | [form], some e => simp [single, Except.isOk, Except.toBool]

end Reading

namespace Session

/-- Evaluates data one after the other in the root scope, whatever becomes of those before. -/
def evalEach (s : Session) : List Datum → List (Except Error Expr) × Session
  | [] => ([], s)
  | d :: rest =>
    let (outcome, after) := s.evalDatum Store.root d
    let (outcomes, last) := after.evalEach rest
    (outcome :: outcomes, last)

theorem evalEach_append (s : Session) (ds es : List Datum) :
    s.evalEach (ds ++ es) =
      ((s.evalEach ds).1 ++ ((s.evalEach ds).2.evalEach es).1,
        ((s.evalEach ds).2.evalEach es).2) := by
  induction ds generalizing s with
  | nil => rfl
  | cons d ds ih => simp only [List.cons_append, evalEach, ih]

@[simp] theorem world_perform {α : Type} (s : Session) (run : Run α) :
    (s.perform run).2.world = s.world := by
  unfold perform
  split <;> rfl

@[simp] theorem world_evalDatum (s : Session) (scope : ScopeId) (d : Datum) :
    (s.evalDatum scope d).2.world = s.world :=
  world_perform s _

@[simp] theorem world_evalEach (s : Session) (ds : List Datum) :
    (s.evalEach ds).2.world = s.world := by
  induction ds generalizing s with
  | nil => rfl
  | cons d ds ih => simp only [evalEach, ih, world_evalDatum]

theorem showDatum_eq (s : Session) (showValue : Bool) (d : Datum) :
    (s.showDatum showValue d).session = (s.evalDatum Store.root d).2 ∧
      (s.showDatum showValue d).result = (s.evalDatum Store.root d).1.isOk := by
  simp only [showDatum, shown]
  cases (s.evalDatum Store.root d).1 <;> exact ⟨rfl, rfl⟩

/-- Data that are shown are evaluated each. -/
theorem showData_eq (s : Session) (showValue : Bool) (ds : List Datum) :
    (s.showData showValue ds).session = (s.evalEach ds).2 ∧
      (s.showData showValue ds).result = (s.evalEach ds).1.all Except.isOk := by
  induction ds generalizing s with
  | nil => exact ⟨rfl, rfl⟩
  | cons d ds ih =>
    obtain ⟨after, outcome⟩ := s.showDatum_eq showValue d
    obtain ⟨last, outcomes⟩ := ih (s.showDatum showValue d).session
    rw [after] at last outcomes
    simp only [showData, evalEach, List.all_cons, outcome, after, last, outcomes, and_self]

theorem evalSingle_eq (s : Session) (text : String) :
    s.evalSingle text =
      match Datum.ofText? text with
      | .ok d => s.evalDatum Store.root d
      | .error e => (.error (.unreadable defaultOrigin e), s) := by
  simp only [evalSingle, Program.evalSingle]
  cases Datum.ofText? text <;> rfl

end Session

namespace Options

theorem foldl_withFile (o : Options) (paths : List String) :
    paths.foldl withFile o = { o with files := o.files ++ paths } := by
  induction paths generalizing o with
  | nil => simp
  | cons path paths ih => simp [ih, withFile]

/-- Arguments that ask for an expression. -/
def commandArguments : Option String → List String
  | none => []
  | some text => ["--command=" ++ text]

theorem step_command (text : String) :
    step {} ("--command=" ++ text) = .ok (.options { command := some text }) := by
  have written : ("--command=" ++ text).toList = '-' :: '-' :: ("command=".toList ++ text.toList) :=
    String.toList_append
  have split : splitValue ("command=".toList ++ text.toList) = ("command", some text) := by
    simp [splitValue]
  have read : step {} ("--command=" ++ text) = word {} ("command=".toList ++ text.toList) := by
    rw [step, written]
    rfl
  rw [read, word, split]
  rfl

/-- Any files that have a name can be given, and any expression. -/
theorem ofArguments_batch {files : List String} (named : "" ∉ files) (command : Option String) :
    ofArguments {} (commandArguments command ++ "--" :: files) = .run { files, command } := by
  have last : ∀ o : Options, o.step "--" = .ok .filesOnly := fun o => rfl
  cases command with
  | none => simp [commandArguments, ofArguments, last, named, foldl_withFile]
  | some text =>
    simp [commandArguments, ofArguments, last, step_command, named, foldl_withFile]

end Options

namespace CommandLine

/-- The data of a script: those of its forms before the first error of reading, and none if
there is no such file. -/
def scriptData (w : World) (path : String) : List Datum :=
  match w.fileText path with
  | .ok text => (Reading.ofText text).forms.map Form.datum
  | .error _ => []

/-- The datum of the expression, if there is one and it can be read. -/
def commandData : Option String → List Datum
  | none => []
  | some text => (Datum.ofText? text).toOption.toList

/-- What is evaluated when the options do not ask for the console, in this order. -/
def data (o : Options) (w : World) : List Datum :=
  o.files.flatMap (scriptData w) ++ commandData o.command

/-- Whether a file is there and can be read to its end. -/
def Readable (w : World) (path : String) : Prop :=
  ∃ text, w.fileText path = .ok text ∧ (Reading.ofText text).error? = none

/-- Whether all texts that options name can be read, and the expression is a single one. -/
structure AllReadable (o : Options) (w : World) : Prop where
  files : ∀ path ∈ o.files, Readable w path
  command : ∀ text, o.command = some text →
    (Reading.ofText text).error? = none ∧ (Reading.ofText text).forms.length ≤ 1

theorem allReadable_iff (o : Options) (w : World) :
    AllReadable o w ↔ (∀ path ∈ o.files, Readable w path) ∧
      ∀ text, o.command = some text → (Datum.ofText? text).isOk = true := by
  simp only [Datum.ofText?, Reading.isOk_single]
  exact ⟨fun h => ⟨h.files, h.command⟩, fun h => ⟨h.1, h.2⟩⟩

theorem runScript_eq (s : Session) (path : String) :
    (runScript s path).session = (s.evalEach (scriptData s.world path)).2 ∧
      ((runScript s path).result = true ↔
        Readable s.world path ∧ (s.evalEach (scriptData s.world path)).1.all Except.isOk) := by
  cases file : s.world.fileText path with
  | error fault => simp [runScript, scriptData, Readable, file, Session.evalEach]
  | ok text =>
    obtain ⟨after, outcomes⟩ := s.showData_eq false ((Reading.ofText text).forms.map Form.datum)
    cases error : (Reading.ofText text).error? <;>
      simp [runScript, scriptData, Readable, file, error, after, outcomes]

/-- Scripts are evaluated as one run of data, which is independent of their failures. -/
theorem runScripts_eq (s : Session) (paths : List String) :
    (runScripts s paths).session = (s.evalEach (paths.flatMap (scriptData s.world))).2 ∧
      ((runScripts s paths).result = true ↔
        (∀ path ∈ paths, Readable s.world path) ∧
          (s.evalEach (paths.flatMap (scriptData s.world))).1.all Except.isOk) := by
  induction paths generalizing s with
  | nil => simp [runScripts, Session.evalEach]
  | cons path paths ih =>
    obtain ⟨after, succeeds⟩ := runScript_eq s path
    obtain ⟨last, others⟩ := ih (runScript s path).session
    rw [after, Session.world_evalEach] at last others
    rw [List.flatMap_cons, Session.evalEach_append]
    refine ⟨by simp only [runScripts, after, last], ?_⟩
    simp only [runScripts, Bool.and_eq_true, List.forall_mem_cons, List.all_append]
    rw [succeeds, after, others]
    exact and_and_and_comm

theorem runCommand_eq (s : Session) (text : String) :
    (runCommand s text).session = (s.evalEach (commandData (some text))).2 ∧
      ((runCommand s text).result = true ↔
        (Datum.ofText? text).isOk = true ∧
          (s.evalEach (commandData (some text))).1.all Except.isOk) := by
  simp only [runCommand, Session.shown, Session.evalSingle_eq, commandData]
  cases Datum.ofText? text with
  | error e => exact ⟨rfl, by simp [Except.isOk, Except.toBool]⟩
  | ok d =>
    cases outcome : (s.evalDatum Store.root d).1 <;>
      simp [Session.evalEach, outcome, Except.toOption, Except.isOk, Except.toBool]

/-- Scripts, and then the expression, are evaluated as one run of data. -/
theorem runBatch_eq (s : Session) (o : Options) :
    (runBatch o s).session = (s.evalEach (data o s.world)).2 ∧
      ((runBatch o s).result = true ↔
        AllReadable o s.world ∧ ∀ outcome ∈ (s.evalEach (data o s.world)).1, outcome.isOk) := by
  obtain ⟨scripted, scripts⟩ := runScripts_eq s o.files
  cases command : o.command with
  | none =>
    simp [runBatch, data, commandData, command, scripted, scripts, allReadable_iff]
  | some text =>
    obtain ⟨last, succeeds⟩ := runCommand_eq (runScripts s o.files).session text
    rw [scripted] at last succeeds
    have whole : s.evalEach (data o s.world) = _ := s.evalEach_append _ _
    simp only [command] at whole
    refine ⟨by simp only [runBatch, command, scripted, last, whole], ?_⟩
    simp only [runBatch, command, Bool.and_eq_true, allReadable_iff, whole,
      ← List.all_eq_true, List.all_append, Option.some.injEq, forall_eq']
    rw [scripts, scripted, succeeds]
    exact and_and_and_comm

/-- Whatever fails, a run that does not open the console evaluates every form of its files in
order, each file up to its first error of reading and no further, and then the expression,
all in the root scope of one session. It succeeds exactly if every file is there, all texts
can be read, the expression being a single one, and every evaluation has a value. -/
theorem run_batch {arguments : List String} {o : Options}
    (parsed : Options.ofArguments {} arguments = .run o) (batch : isInteractive o = false)
    (world : World) (input : String) :
    let begun := session o world
    let evaluated := begun.evalEach (data o world)
    (runBatch o begun).session = evaluated.2 ∧
      (run arguments world input).1 = (runBatch o begun).emissions ∧
      (∀ path before behind position cause, world.fileText path = .ok (before ++ behind) →
        (Reading.ofText before).error? = some (.malformed position cause) →
        scriptData world path = (Reading.ofText before).forms.map Form.datum) ∧
      ((run arguments world input).2 = 0 ↔
        AllReadable o world ∧ ∀ outcome ∈ evaluated.1, outcome.isOk) := by
  intro begun evaluated
  obtain ⟨last, succeeds⟩ := runBatch_eq begun o
  have shown : run arguments world input =
      ((runBatch o begun).emissions, if (runBatch o begun).result then 0 else 1) := by
    simp only [run, parsed, batch]
    rfl
  have code : (run arguments world input).2 = 0 ↔ (runBatch o begun).result = true := by
    rw [shown]
    cases (runBatch o begun).result <;> simp
  -- The depth limit is all in which the world of the session differs.
  have sameWorld : AllReadable o begun.world ↔ AllReadable o world :=
    ⟨fun h => ⟨h.files, h.command⟩, fun h => ⟨h.files, h.command⟩⟩
  refine ⟨last, by rw [shown], ?_, by rw [code, succeeds, sameWorld]; rfl⟩
  intro path before behind position cause file malformed
  simp only [scriptData, file, Reading.ofText_append_of_malformed malformed]

/-- Neither the call that fails nor the parenthesis that ends the script keeps the expression
from its value, but the form behind the parenthesis is not evaluated. -/
theorem run_batch_failing :
    let arguments := ["a", "-c", "x"]
    let o : Options := { files := ["a"], command := some "x" }
    let world : World := { fileText := fun _ => .ok ("(car 1) (setq x 5))" ++ "(setq x 6)") }
    Options.ofArguments {} arguments = .run o ∧ isInteractive o = false ∧
      (scriptData world "a").length = 2 ∧
      ((session o world).evalEach (data o world)).1.map Except.isOk = [false, true, true] ∧
      (run arguments world "").2 ≠ 0 := by
  intro arguments o world
  have parsed : Options.ofArguments {} arguments = .run o := by rfl
  have outcomes : ((session o world).evalEach (data o world)).1.map Except.isOk =
      [false, true, true] := by decide +kernel
  have malformed : (Reading.ofText "(car 1) (setq x 5))").error? =
      some (.malformed ⟨18, 1, 19⟩ .unmatchedClose) := by decide +kernel
  have forms : (Reading.ofText "(car 1) (setq x 5))").forms.length = 2 := by decide +kernel
  obtain ⟨-, -, cut, succeeds⟩ := run_batch parsed rfl world ""
  refine ⟨parsed, rfl, ?_, outcomes, ?_⟩
  · rw [cut "a" _ _ _ _ rfl malformed, List.length_map, forms]
  · intro success
    have failed : false ∈ ((session o world).evalEach (data o world)).1.map Except.isOk := by
      rw [outcomes]
      exact List.mem_cons_self
    obtain ⟨outcome, mem, isError⟩ := List.mem_map.mp failed
    exact absurd ((succeeds.mp success).2 outcome mem) (by simp [isError])

end CommandLine

end Lisp
