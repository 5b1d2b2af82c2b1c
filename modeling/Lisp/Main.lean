import Lisp.CommandLine

/-!
# The program

Runs the command line on the files, the input and the streams of the system.
Evaluation itself reads no file: a step that asks for a file not read before is
discarded, the file is read, and the step is done again from where it began.
-/

namespace Lisp.Main

/-- The files read so far and what reading them gave. -/
abbrev Files := List (String × Except FileFault String)

def Files.text (files : Files) (path : String) : Except FileFault String :=
  (files.lookup path).getD (.error .notFound)

/-- Reads a file as text. -/
def readText (path : String) : IO (Except FileFault String) := do
  try
    let bytes ← IO.FS.readBinFile path
    match String.fromUTF8? bytes with
    | some text => return .ok text
    | none => return .error .invalidText
  catch
    | .noFileOrDirectory .. => return .error .notFound
    | .inappropriateType .. => return .error .directory
    | e => return .error (.other (toString e))

/-- The session with the files that have been read. -/
def withFiles (s : Session) (files : Files) : Session :=
  { s with world := { s.world with fileText := files.text } }

/-- Reads the files among the given ones that have not been read yet. -/
def readMissing (files : Files) (paths : List String) : IO Files :=
  paths.foldlM (fun files path => do
    if (files.lookup path).isSome then return files
    else return (path, ← readText path) :: files) files

/-- Does a step until it asks for no file that has not been read. -/
partial def settle {α : Type} (files : Files) (s : Session) (step : Session → α)
    (reached : α → Session) : IO (α × Files) := do
  let result := step (withFiles s files)
  let known := files.length
  let files ← readMissing files (reached result).machine.requested.toList
  if files.length = known then return (result, files) else settle files s step reached

/-- Writes emissions to the two streams. -/
def emit (emissions : List Emission) : IO Unit :=
  emissions.forM fun
    | .out text => IO.print text
    | .err text => IO.eprint text

/-- A line without its line break. -/
def chomp (line : String) : String :=
  match line.toList.reverse with
  | '\n' :: '\r' :: rest => String.ofList rest.reverse
  | '\n' :: rest => String.ofList rest.reverse
  | _ => line

/-- Reads lines until the input ends or the console is left. -/
partial def converse (files : Files) (c : Console) : IO Unit := do
  let input ← IO.getStdin
  if ← input.isTty then
    IO.print c.prompt
    (← IO.getStdout).flush
  let line ← input.getLine
  if line.isEmpty then
    emit c.endOfInput
  else
    let step (s : Session) := { c with session := s }.enterLine (chomp line)
    let ((c, emissions), files) ← settle files c.session step fun result => result.1.session
    emit emissions
    unless c.closed do converse files c

/-- Runs scripts and the expression of the command line, each as one step. -/
def runBatch (o : Options) (s : Session) : IO Bool := do
  let mut files ← readMissing [] o.files
  let mut s := s
  let mut fine := true
  for path in o.files do
    let (step, read) ← settle files s (CommandLine.runScript · path) Shown.session
    emit step.emissions
    files := read
    s := step.session
    fine := fine && step.result
  if let some text := o.command then
    let (step, _) ← settle files s (CommandLine.runCommand · text) Shown.session
    emit step.emissions
    fine := fine && step.result
  return fine

end Lisp.Main

open Lisp in
def main (arguments : List String) : IO UInt32 := do
  match Options.ofArguments {} arguments with
  | .run o =>
    let s := CommandLine.session o {}
    if CommandLine.isInteractive o then
      Main.emit Console.banner
      Main.converse [] (Console.mk s "" false)
      return 0
    else
      return if ← Main.runBatch o s then 0 else 1
  | _ =>
    let (emissions, code) := CommandLine.run arguments {} ""
    Main.emit emissions
    return code.toUInt32
