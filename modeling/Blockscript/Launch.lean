import Blockscript.Dialogue
import Blockscript.Folder
import Blockscript.Invocation

/-!
# Launching the program

The program from its arguments to its exit status, given what paths lead to and what the input holds.
-/

namespace Blockscript

/-- How the program ends and what it has written. -/
structure Exit where
  status : Nat
  transcript : Transcript

namespace Exit

def success : Nat := 0

/-- The arguments or the file cannot be used. -/
def usage : Nat := 1

/-- The source text was read and is at fault. -/
def faulty : Nat := 2

def ofOutcome (o : Outcome) : Exit :=
  ⟨if o.succeeded then success else faulty, o.transcript⟩

end Exit

namespace Invocation

/-- Ends without a run. -/
def Halt.exit : Halt → Exit
  | help => ⟨Exit.success, [.out helpText]⟩
  | version => ⟨Exit.success, [.out versionText]⟩
  | _ => ⟨Exit.usage, [.err "usage error"]⟩

/-- Runs a source text or lists its tokens. -/
def runSource (i : Invocation) (source name : String) : Exit :=
  .ofOutcome (if i.tokensOnly then listTokens source (some name) else runScript source (some name))

/-- Ends because a file is there and cannot be read. -/
def readError (path reason : String) : Exit :=
  ⟨Exit.usage, [.err ("Error reading file '" ++ path ++ "': " ++ reason ++ "\n")]⟩

/-- Runs what a path leads to. -/
def runEntry (i : Invocation) (path : String) : Entry → Exit
  | .missing => ⟨Exit.usage, [.err ("Error: File '" ++ path ++ "' not found\n")]⟩
  | .folder => readError path "Is a directory (os error 21)"
  | .unreadable reason => readError path reason
  | .file bytes =>
    match Text.decode? bytes with
    | some source => i.runSource source path
    | none => readError path "stream did not contain valid UTF-8"

/-- Runs an invocation, whatever its verbosity. -/
def run (i : Invocation) (entry : String → Entry) (input : List UInt8) : Exit :=
  match i.mode with
  | .file path => i.runEntry path (entry path)
  | .eval source => i.runSource source "<eval>"
  | .dialogue => ⟨Exit.success, Dialogue.transcript input⟩

end Invocation

/-- Runs the program with the arguments behind its name. -/
def launch (arguments : List String) (entry : String → Entry) (input : List UInt8) : Exit :=
  match Invocation.ofArguments arguments with
  | .error halt => halt.exit
  | .ok i =>
    let exit := i.run entry input
    { exit with transcript := exit.transcript.atVerbosity i.verbosity }

end Blockscript
