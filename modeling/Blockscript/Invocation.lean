/-!
# Command lines

The arguments of the program, read from left to right. The first argument that cannot be read decides the answer; a request for help or for the version ends the reading as well. Rules that concern several arguments are checked at the end.

The source text of `--eval` may be the argument after it. Such a text counts only when the next argument has been recognised, so an argument that is not known is refused before a text that is missing or given twice.
-/

namespace Blockscript

/-- What the program is asked to run. -/
inductive Mode where
  | file (path : String)
  | eval (source : String)
  | dialogue
deriving DecidableEq

structure Invocation where
  mode : Mode
  /-- List the tokens instead of running the source. -/
  tokensOnly : Bool
  verbosity : Nat
deriving DecidableEq

namespace Invocation

/-- Why reading the arguments stops before a run. -/
inductive Halt where
  | help
  | version
  | unknownArgument
  | tooManyValues
  | invalidValue
  | argumentConflict
  | missingRequiredArgument
deriving DecidableEq

/-- Options without a value. -/
inductive Flag where
  | interactive | tokens | verbose | help | version
deriving DecidableEq

inductive Opt where
  | flag (f : Flag)
  | eval
deriving DecidableEq

def Opt.ofLong? (name : String) : Option Opt :=
  match name with
  | "eval" => some .eval
  | "interactive" => some (.flag .interactive)
  | "tokens" => some (.flag .tokens)
  | "verbose" => some (.flag .verbose)
  | "help" => some (.flag .help)
  | "version" => some (.flag .version)
  | _ => none

def Opt.ofShort? (c : Char) : Option Opt :=
  match c with
  | 'e' => some .eval
  | 'i' => some (.flag .interactive)
  | 'v' => some (.flag .verbose)
  | 'h' => some (.flag .help)
  | 'V' => some (.flag .version)
  | _ => none

/-- The form of an argument. -/
inductive Shape where
  /-- All later arguments are plain. -/
  | separator
  | long (name : String) (value : Option String)
  /-- Options of one letter each. -/
  | group (letters : List Char)
  | plain
deriving DecidableEq

def Shape.ofArgument (argument : String) : Shape :=
  match argument.toList with
  | ['-', '-'] => .separator
  | '-' :: '-' :: cs =>
    let name := String.ofList (cs.takeWhile (· != '='))
    match cs.dropWhile (· != '=') with
    | [] => .long name none
    | _ :: value => .long name (some (String.ofList value))
  | '-' :: c :: cs => .group (c :: cs)
  | _ => .plain

/-- What has been given so far. -/
structure Draft where
  file : Option String := none
  eval : Option String := none
  interactive : Bool := false
  tokens : Bool := false
  verbosity : Nat := 0
deriving DecidableEq

/-- The text of an `--eval` that does not count yet. -/
inductive Pending where
  | nothing
  /-- The option was given and no text yet. -/
  | missing
  | text (source : String)
deriving DecidableEq

/-- How far verbosity goes. -/
def maxVerbosity : Nat := 255

namespace Draft

def setEval (d : Draft) (source : String) : Except Halt Draft :=
  match d.eval with
  | some _ => .error .argumentConflict
  | none => .ok { d with eval := some source }

/-- Lets a pending text count. -/
def settle (d : Draft) : Pending → Except Halt Draft
  | .nothing => .ok d
  | .missing => .error .invalidValue
  | .text source => d.setEval source

def setFlag (d : Draft) : Flag → Except Halt Draft
  | .interactive =>
    if d.interactive then .error .argumentConflict else .ok { d with interactive := true }
  | .tokens => if d.tokens then .error .argumentConflict else .ok { d with tokens := true }
  | .verbose => .ok { d with verbosity := min (d.verbosity + 1) maxVerbosity }
  | .help => .error .help
  | .version => .error .version

/-- Takes a plain argument as the file, of which there is at most one. -/
def setFile (d : Draft) (pending : Pending) (path : String) : Except Halt Draft :=
  match d.file with
  | some _ => .error .unknownArgument
  | none => do
    let d ← d.settle pending
    return { d with file := some path }

/-- Reads the letters of a group. The letter of `--eval` takes the rest of the group as its text, less one equals sign in front. -/
def readGroup (d : Draft) (pending : Pending) : List Char → Except Halt (Draft × Pending)
  | [] => .ok (d, pending)
  | c :: rest =>
    match Opt.ofShort? c with
    | none => .error .unknownArgument
    | some (.flag f) => do
      let d ← d.settle pending
      let d ← d.setFlag f
      d.readGroup .nothing rest
    | some .eval => do
      let d ← d.settle pending
      match rest with
      | [] => return (d, .missing)
      | '=' :: source => return (← d.setEval (String.ofList source), .nothing)
      | source => return (← d.setEval (String.ofList source), .nothing)

/-- Reads an option given by its long name. -/
def readLong (d : Draft) (pending : Pending) (name : String) (value : Option String) :
    Except Halt (Draft × Pending) :=
  match Opt.ofLong? name, value with
  | none, _ => .error .unknownArgument
  | some (.flag _), some _ => .error .tooManyValues
  | some (.flag f), none => do
    let d ← d.settle pending
    return (← d.setFlag f, .nothing)
  | some .eval, some source => do
    let d ← d.settle pending
    return (← d.setEval source, .nothing)
  | some .eval, none => do
    let d ← d.settle pending
    return (d, .missing)

/-- Reads arguments that are all plain. -/
def readPlain (d : Draft) (pending : Pending) : List String → Except Halt Draft
  | [] => d.settle pending
  | path :: rest => do
    let d ← d.setFile pending path
    d.readPlain .nothing rest

def read (d : Draft) (pending : Pending) : List String → Except Halt Draft
  | [] => d.settle pending
  | argument :: rest =>
    match Shape.ofArgument argument, pending with
    | .separator, pending => d.readPlain pending rest
    | .long name value, pending => do
      let (d, pending) ← d.readLong pending name value
      d.read pending rest
    | .group letters, pending => do
      let (d, pending) ← d.readGroup pending letters
      d.read pending rest
    | .plain, .missing => d.read (.text argument) rest
    | .plain, pending => do
      let d ← d.setFile pending argument
      d.read .nothing rest

/-- At most one of a file, a source text and a dialogue can be asked for, and tokens are listed only of the first two. -/
def check (d : Draft) : Except Halt Unit :=
  if [d.file.isSome, d.eval.isSome, d.interactive].count true > 1 then .error .argumentConflict
  else if d.tokens && d.file.isNone && d.eval.isNone then .error .missingRequiredArgument
  else .ok ()

def mode (d : Draft) : Mode :=
  match d.interactive, d.file, d.eval with
  | true, _, _ => .dialogue
  | false, some path, _ => .file path
  | false, none, some source => .eval source
  | false, none, none => .dialogue

end Draft

/-- Reads the arguments behind the name of the program. -/
def ofArguments (arguments : List String) : Except Halt Invocation := do
  let d ← Draft.read {} .nothing arguments
  d.check
  return ⟨d.mode, d.tokens, d.verbosity⟩

/-- Reads a command line, whose first word names the program. -/
def ofCommandLine (words : List String) : Except Halt Invocation :=
  ofArguments words.tail

/-- What `--version` prints. -/
def versionText : String := "spartie 0.1.0\n"

/-- What `--help` prints. -/
def helpText : String :=
  "A tree-walking interpreter for the Spartie expression language\n" ++
  "\n" ++
  "Usage: spartie [OPTIONS] [FILE]\n" ++
  "\n" ++
  "Arguments:\n" ++
  "  [FILE]  The script file to execute\n" ++
  "\n" ++
  "Options:\n" ++
  "  -e, --eval <SOURCE>  Evaluate the given source text\n" ++
  "  -i, --interactive    Start in interactive REPL mode\n" ++
  "      --tokens         Print the token stream of FILE or --eval instead of evaluating\n" ++
  "  -v, --verbose...     Log to stderr (-v debug, -vv trace)\n" ++
  "  -h, --help           Print help\n" ++
  "  -V, --version        Print version\n"

end Invocation

end Blockscript
