import Blockscript.Script
import Blockscript.Text.Bytes
import Blockscript.Text.WhiteSpace

/-!
# Dialogues

Reads lines from an input and runs each in one session, until a line asks to stop, a line cannot be read, or the input ends. A line that fails is reported and the dialogue goes on.
-/

namespace Blockscript.Dialogue

def banner : String :=
  "Spartie Interpreter v0.1.0\nType 'exit' or press Ctrl+D to quit\n\n"

def prompt : Emission := .out "> "

def farewell : Emission := .out "Goodbye!\n"

def unreadable : Emission := .err "Error reading input: stream did not contain valid UTF-8\n"

/-- Whether a line asks to stop. -/
def isExit (line : String) : Bool :=
  line == "exit" || line == "quit"

/-- What a line brings forth, and the session for the next line unless the dialogue ends. -/
structure Reply where
  transcript : Transcript
  next : Option Session

/-- Answers one line of input. -/
def reply (s : Session) (bytes : List UInt8) : Reply :=
  match Text.decode? bytes with
  | none => ⟨[unreadable], none⟩
  | some text =>
    let line := Text.trim text
    if line = "" then ⟨[], some s⟩
    else if isExit line then ⟨[farewell], none⟩
    else
      let run := s.interpret line
      ⟨run.events.map .log ++ printed line none run.result, some run.session⟩

/-- What is written when the input ends. -/
def ended : Emission := .out "\n"

/-- The dialogue over the lines that are left. -/
def goOn (s : Session) : List (List UInt8) → Transcript
  | [] => [prompt, ended]
  | bytes :: rest =>
    let answer := reply s bytes
    prompt :: answer.transcript ++
      match answer.next with
      | some next => goOn next rest
      | none => []

/-- The whole dialogue over an input. -/
def transcript (input : List UInt8) : Transcript :=
  .out banner :: goOn .fresh (Text.splitLines input)

end Blockscript.Dialogue
