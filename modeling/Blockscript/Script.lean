import Blockscript.Grammar.Statement
import Blockscript.Scan
import Blockscript.Session.Eval
import Blockscript.Transcript

/-!
# Scripts

Reads, parses and runs a source text. Nothing is printed unless the whole text succeeds; a fault is reported once.
-/

namespace Blockscript

namespace Session

/-- Reads tokens and hands them on, if they can be read. -/
def withTokens {α : Type} (s : Session) (source : String) (next : List Token → Run α) : Run α :=
  match Scan.read source with
  | .error m => .failed m.fault s
  | .ok reading =>
    let run := next reading.tokens
    { run with events := .scanned reading.tokens.length reading.lines :: run.events }

/-- Runs a program text in a session. -/
def interpret (s : Session) (source : String) : Run (List Value) :=
  s.withTokens source fun tokens =>
    match parseProgram tokens with
    | .error fault => .failed fault s
    | .ok program =>
      let run := Stmt.execAll program s
      { run with events := .parsed program.length :: run.events }

/-- Evaluates the text of one expression in a session. -/
def evaluate (s : Session) (source : String) : Run Value :=
  s.withTokens source fun tokens =>
    match parseExpression tokens with
    | .error fault => .failed fault s
    | .ok e => e.eval s

end Session

/-- The values of a program text, run in a session of its own. -/
def interpret (source : String) : Except Fault (List Value) :=
  (Session.fresh.interpret source).result

/-- Prints values, one on a line, or reports a fault. -/
def printed (source : String) (name : Option String) : Except Fault (List Value) → Transcript
  | .ok values => values.map fun value => .out (value.text ++ "\n")
  | .error fault => [fault.report source name]

/-- Whether a script succeeded, and what it wrote. -/
structure Outcome where
  succeeded : Bool
  transcript : Transcript

/-- Runs a script and prints its values. -/
def runScript (source : String) (name : Option String) : Outcome :=
  let run := Session.fresh.interpret source
  ⟨run.result.isOk, run.events.map .log ++ printed source name run.result⟩

/-- Prints the tokens of a script, one on a line. -/
def listTokens (source : String) (name : Option String) : Outcome :=
  match Scan.read source with
  | .error m => ⟨false, [m.fault.report source name]⟩
  | .ok reading =>
    ⟨true, .log (.scanned reading.tokens.length reading.lines) ::
      reading.tokens.map fun t => .out (t.listing ++ "\n")⟩

end Blockscript
