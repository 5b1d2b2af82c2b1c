import Lisp.Transcript
import Lisp.Text.Blank

/-!
# The console

The console reads lines. Lines are collected until they form complete
expressions; then all of these are evaluated in order and their values are
shown. A line that begins an input may also be blank, or one of the commands.
-/

namespace Lisp

/-- A console: its session, the text of an input that is not complete yet, and
whether it has been left. -/
structure Console where
  session : Session
  pending : String := ""
  closed : Bool := false

namespace Console

def banner : List Emission :=
  [.outLine "minilisp v0.1.0",
    .outLine "Type expressions to evaluate them, :help for commands, Ctrl+D to exit.",
    .outLine ""]

def farewell : List Emission := [.outLine "Goodbye!"]

def help : List Emission :=
  ["Commands:",
    "  :help    - Show this help message",
    "  :env     - Show bound names",
    "  :quit    - Exit the interpreter",
    "  :exit    - Exit the interpreter",
    "",
    "An unfinished expression continues on the next line at the '... ' prompt.",
    "",
    "Examples:",
    "  (+ 1 2 3)",
    "  (setq x 42)",
    "  (if (> x 0) \"positive\" \"not positive\")",
    "  (defun square (x) (* x x))",
    "  (funcall #'(lambda (y) (+ x y)) 1)"].map .outLine

/-- The greatest length in bytes of a line of names, without its indentation. -/
def nameWidth : Nat := 78

/-- Fills lines with words; `line` is the line begun. -/
def fill (line : String) : List String → List String
  | [] => if line.isEmpty then [] else [line]
  | word :: rest =>
    if line.isEmpty then fill word rest
    else if nameWidth < line.utf8ByteSize + word.utf8ByteSize + 1 then line :: fill word rest
    else fill (line ++ " " ++ word) rest

/-- The names bound in the root scope, on indented lines. -/
def environment (s : Session) : List Emission :=
  (fill "" (s.machine.store.names Store.root)).map fun line => .outLine ("  " ++ line)

/-- The next prompt. -/
def prompt (c : Console) : String := if c.pending.isEmpty then "lisp> " else "... "

/-- One more line of an input. -/
def continueInput (c : Console) (line : String) : Console × List Emission :=
  let text := c.pending ++ line ++ "\n"
  let reading := Reading.ofText text
  match reading.error? with
  | some (.unterminated _ _) => ({ c with pending := text }, [])
  | some e => ({ c with pending := "" }, [.report (.unreadable defaultOrigin e)])
  | none =>
    let step := c.session.showData true (reading.forms.map Form.datum)
    ({ c with session := step.session, pending := "" }, step.emissions)

/-- One line. -/
def enterLine (c : Console) (line : String) : Console × List Emission :=
  if c.pending.isEmpty then
    match Text.trim line with
    | "" => (c, [])
    | ":help" => (c, help)
    | ":env" => (c, environment c.session)
    | ":quit" => ({ c with closed := true }, farewell)
    | ":exit" => ({ c with closed := true }, farewell)
    | _ => c.continueInput line
  else c.continueInput line

/-- Lines until the console is left. -/
def enterLines (c : Console) : List String → Console × List Emission
  | [] => (c, [])
  | line :: rest =>
    if c.closed then (c, [])
    else
      let (c, first) := c.enterLine line
      let (c, others) := c.enterLines rest
      (c, first ++ others)

/-- The end of the input, which also leaves the console. -/
def endOfInput (c : Console) : List Emission := if c.closed then [] else farewell

end Console

end Lisp
