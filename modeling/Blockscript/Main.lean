import Blockscript.Launch

/-!
# The command

Carries out the pure program: looks up the one path it asks for, reads lines for a dialogue as they come, and writes the transcript to the two channels.
-/

namespace Blockscript.Command

/-- An error in the words of the system, with its number. -/
def reason : IO.Error → String
  | .alreadyExists _ code text | .interrupted _ code text | .noFileOrDirectory _ code text
  | .invalidArgument _ code text | .permissionDenied _ code text | .resourceExhausted _ code text
  | .inappropriateType _ code text | .noSuchThing _ code text | .otherError code text
  | .resourceBusy code text | .resourceVanished code text | .unsupportedOperation code text
  | .hardwareFault code text | .unsatisfiedConstraints code text | .illegalOperation code text
  | .protocolError code text | .timeExpired code text => text ++ " (os error " ++ toString code ++ ")"
  | e => toString e

/-- What a path leads to on disk. It leads somewhere if it can be followed to its end, even to what cannot be read. -/
def lookUp (path : String) : IO Entry := do
  let .ok _ ← (IO.FS.realPath path).toBaseIO | return .missing
  match ← (IO.FS.readBinFile path).toBaseIO with
  | .ok bytes => return .file bytes.toList
  | .error (.inappropriateType ..) => return .folder
  | .error e => return .unreadable (reason e)

/-- Writes an emission to its channel. -/
def write (emission : Emission) : IO Unit := do
  let out ← IO.getStdout
  let err ← IO.getStderr
  match emission with
  | .out text => out.putStr text; out.flush
  | .err text => err.putStr text
  | .log event => err.putStrLn event.logLine
  | .report d =>
    err.putStrLn d.header
    if let some excerpt := d.excerpt then
      err.putStrLn ("  " ++ excerpt.location)
      if let some note := excerpt.note then err.putStrLn ("  " ++ note)

def writeAll (transcript : Transcript) : IO Unit :=
  transcript.forM write

/-- The next line with its line feed, empty at the end of the input. -/
partial def nextLine (input : IO.FS.Stream) (line : Array UInt8) : IO (List UInt8) := do
  let bytes ← input.read 1
  match bytes.toList with
  | [] => return line.toList
  | b :: _ => if b == 10 then return (line.push b).toList else nextLine input (line.push b)

/-- Runs a dialogue with the standard input. -/
partial def converse (verbosity : Nat) (input : IO.FS.Stream) (s : Session) : IO Unit := do
  write Dialogue.prompt
  match ← nextLine input #[] with
  | [] => write Dialogue.ended
  | line =>
    let reply := Dialogue.reply s line
    writeAll (reply.transcript.atVerbosity verbosity)
    if let some next := reply.next then converse verbosity input next

end Blockscript.Command

open Blockscript in
def main (arguments : List String) : IO UInt32 := do
  match Invocation.ofArguments arguments with
  | .ok ⟨.dialogue, _, verbosity⟩ =>
    Command.write (.out Dialogue.banner)
    Command.converse verbosity (← IO.getStdin) .fresh
    return Exit.success.toUInt32
  | .ok ⟨.file path, _, _⟩ =>
    let entry ← Command.lookUp path
    let exit := launch arguments (fun _ => entry) []
    Command.writeAll exit.transcript
    return exit.status.toUInt32
  | _ =>
    let exit := launch arguments (fun _ => .missing) []
    Command.writeAll exit.transcript
    return exit.status.toUInt32
