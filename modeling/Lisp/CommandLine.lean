import Lisp.Console

/-!
# The command line

Script files are run in order, all in one session; then the expression given
with `-c` is evaluated and its value shown. Without files and without an
expression the console is opened. The run succeeds when every file could be read
and was free of errors, and so was the expression.
-/

namespace Lisp

/-- What the command line asks for. -/
structure Options where
  files : List String := []
  command : Option String := none
  verbose : Bool := false
  maxDepth : Option Nat := none

/-- The outcome of reading the command line. -/
inductive Request where
  | run (options : Options)
  | help
  | version
  | usage (problem : String)

namespace Options

/-- A depth limit: decimal digits, perhaps with a plus sign, below `2 ^ 64`. -/
def depthLimit? (text : String) : Option Nat :=
  let digits := match text.toList with
    | '+' :: rest => rest
    | cs => cs
  let n := Decimal.valueOfDigits digits
  if digits ≠ [] ∧ digits.all Char.isDigit ∧ n < Nat.pow 2 64 then some n else none

/-- Whether an argument can only be an option. -/
def isOption (arg : String) : Bool :=
  match arg.toList with
  | '-' :: _ :: _ => true
  | _ => false

def withFile (o : Options) (path : String) : Options := { o with files := o.files ++ [path] }

def withCommand (o : Options) (text : String) : Except String Options :=
  match o.command with
  | none => .ok { o with command := some text }
  | some _ => .error "the argument '--command <EXPR>' cannot be used multiple times"

def withVerbose (o : Options) : Except String Options :=
  if o.verbose then .error "the argument '--verbose' cannot be used multiple times"
  else .ok { o with verbose := true }

def withMaxDepth (o : Options) (text : String) : Except String Options :=
  match o.maxDepth, depthLimit? text with
  | some _, _ => .error "the argument '--max-depth <N>' cannot be used multiple times"
  | none, some n => .ok { o with maxDepth := some n }
  | none, none => .error ("invalid value '" ++ text ++ "' for '--max-depth <N>'")

/-- An option that takes a value. -/
inductive Valued where
  | command
  | maxDepth

def Valued.set (v : Valued) (o : Options) (text : String) : Except String Options :=
  match v with
  | command => o.withCommand text
  | maxDepth => o.withMaxDepth text

/-- What one argument amounts to: new options, an option whose value is the next
argument, a request for help or for the version, or the end of all options. -/
inductive Step where
  | options (o : Options)
  | awaiting (o : Options) (v : Valued)
  | help
  | version
  | filesOnly

/-- A run of one-letter options. The value of `-c` may follow at once, also after
an equals sign. -/
def letters (o : Options) : List Char → Except String Step
  | [] => .ok (.options o)
  | 'v' :: rest => do letters (← o.withVerbose) rest
  | 'V' :: _ => .ok .version
  | 'h' :: _ => .ok .help
  | 'c' :: [] => .ok (.awaiting o .command)
  | 'c' :: '=' :: rest => do return .options (← o.withCommand (String.ofList rest))
  | 'c' :: rest => do return .options (← o.withCommand (String.ofList rest))
  | c :: _ => .error ("unexpected argument '-" ++ String.singleton c ++ "' found")

/-- Splits an argument at its first equals sign. -/
def splitValue (cs : List Char) : String × Option String :=
  (String.ofList (cs.takeWhile (· ≠ '=')),
    match cs.dropWhile (· ≠ '=') with
    | [] => none
    | _ :: value => some (String.ofList value))

/-- An option with a long name. -/
def word (o : Options) (cs : List Char) : Except String Step :=
  match splitValue cs with
  | ("command", none) => .ok (.awaiting o .command)
  | ("command", some value) => do return .options (← o.withCommand value)
  | ("max-depth", none) => .ok (.awaiting o .maxDepth)
  | ("max-depth", some value) => do return .options (← o.withMaxDepth value)
  | ("verbose", none) => do return .options (← o.withVerbose)
  | ("version", none) => .ok .version
  | ("help", none) => .ok .help
  | (name, _) => .error ("unexpected argument '--" ++ name ++ "' found")

/-- What is said of a file without a name. -/
def missingFile : String := "a value is required for '[FILES]...' but none was supplied"

/-- One argument. -/
def step (o : Options) (arg : String) : Except String Step :=
  match arg.toList with
  | ['-', '-'] => .ok .filesOnly
  | '-' :: '-' :: cs => o.word cs
  | '-' :: c :: cs => o.letters (c :: cs)
  | [] => .error missingFile
  | _ => .ok (.options (o.withFile arg))

/-- Reads the arguments from left to right. -/
def ofArguments (o : Options) : List String → Request
  | [] => .run o
  | arg :: rest =>
    match o.step arg with
    | .error problem => .usage problem
    | .ok .version => .version
    | .ok .help => .help
    | .ok .filesOnly =>
      if "" ∈ rest then .usage missingFile else .run (rest.foldl withFile o)
    | .ok (.options o) => o.ofArguments rest
    | .ok (.awaiting o v) =>
      match rest with
      | [] => .usage "a value is required"
      | value :: rest =>
        if isOption value then .usage "a value is required"
        else match v.set o value with
          | .ok o => o.ofArguments rest
          | .error problem => .usage problem

end Options

namespace CommandLine

/-- The session that options ask for. -/
def session (o : Options) (world : World) : Session where
  world := { world with maxDepth := o.maxDepth.getD 1000 }
  machine := { Machine.initial with tracing := o.verbose }

/-- Runs a script: every form is evaluated, whether or not the ones before it
failed. An error of reading ends the script. -/
def runScript (s : Session) (path : String) : Shown Bool :=
  match s.world.fileText path with
  | .error fault => ⟨false, s, [.errLine ("Error: " ++ path ++ ": " ++ fault.message)]⟩
  | .ok text =>
    let reading := Reading.ofText text
    let step := s.showData false (reading.forms.map Form.datum)
    match reading.error? with
    | none => step
    | some e => ⟨false, step.session, step.emissions ++ [.report (.unreadable path e)]⟩

/-- Runs scripts in order. -/
def runScripts (s : Session) : List String → Shown Bool
  | [] => ⟨true, s, []⟩
  | path :: rest =>
    let first := runScript s path
    let others := runScripts first.session rest
    ⟨first.result && others.result, others.session, first.emissions ++ others.emissions⟩

/-- Evaluates the expression of the command line and shows its value. -/
def runCommand (s : Session) (text : String) : Shown Bool :=
  let step := s.shown fun s => s.evalSingle text
  match step.result with
  | .ok v => ⟨true, step.session, step.emissions ++ [.outLine v.text]⟩
  | .error e => ⟨false, step.session, step.emissions ++ [.report e]⟩

/-- Scripts, and then the expression if there is one. -/
def runBatch (o : Options) (s : Session) : Shown Bool :=
  let scripts := runScripts s o.files
  match o.command with
  | none => scripts
  | some text =>
    let command := runCommand scripts.session text
    ⟨scripts.result && command.result, command.session, scripts.emissions ++ command.emissions⟩

/-- Whether options ask for the console. -/
def isInteractive (o : Options) : Bool := o.files.isEmpty && o.command.isNone

/-- The lines of an input. A line break is LF or CR LF; the last line may lack
one. -/
def linesOf (input : String) : List String :=
  go [] input.toList
where
  go (line : List Char) : List Char → List String
    | [] => if line.isEmpty then [] else [String.ofList line.reverse]
    | '\n' :: rest =>
      let line := match line with
        | '\r' :: before => before
        | line => line
      String.ofList line.reverse :: go [] rest
    | c :: rest => go (c :: line) rest

/-- Everything the console shows for an input. -/
def runConsole (s : Session) (input : String) : List Emission :=
  let (c, shown) := (Console.mk s "" false).enterLines (linesOf input)
  Console.banner ++ shown ++ c.endOfInput

def versionText : String := "minilisp 0.1.0"

def help : List Emission :=
  ["A small Lisp interpreter",
    "",
    "Usage: minilisp [OPTIONS] [FILES]...",
    "",
    "Arguments:",
    "  [FILES]...  Script files to load in order. Without files or -c, starts the REPL",
    "",
    "Options:",
    "  -c, --command <EXPR>  Evaluate one expression and print its value",
    "  -v, --verbose         Log every function call and its result to stderr",
    "      --max-depth <N>   Nested calls allowed before a stack overflow error [default: 1000]",
    "  -h, --help            Print help",
    "  -V, --version         Print version"].map .outLine

/-- A whole run: what it shows and its exit code. -/
def run (arguments : List String) (world : World) (input : String) : List Emission × UInt8 :=
  match Options.ofArguments {} arguments with
  | .help => (help, 0)
  | .version => ([.outLine versionText], 0)
  | .usage problem => ([.errLine ("error: " ++ problem)], 2)
  | .run o =>
    let s := session o world
    if isInteractive o then (runConsole s input, 0)
    else
      let batch := runBatch o s
      (batch.emissions, if batch.result then 0 else 1)

end CommandLine

end Lisp
