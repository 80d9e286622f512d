import Blockscript.Event
import Blockscript.Fault
import Blockscript.Location

/-!
# Reports and transcripts

A fault is reported against the source it comes from. What a program writes is a list of emissions in their order, from which each channel can be read off.
-/

namespace Blockscript

/-- The part of a report that points into the source: the file with line and column, and advice. -/
structure Excerpt where
  location : String
  note : Option String
deriving DecidableEq

/-- A report of a fault: a coloured header, and an excerpt if the source has a line to show. -/
structure Diagnostic where
  header : String
  excerpt : Option Excerpt
deriving DecidableEq

inductive Emission where
  /-- Text for the output channel. -/
  | out (text : String)
  /-- Text for the error channel. -/
  | err (text : String)
  | report (diagnostic : Diagnostic)
  | log (event : Event)
deriving DecidableEq

/-- A text in the terminal colour of the given number. -/
def coloured (number : Nat) (text : String) : String :=
  "\x1b[" ++ toString number ++ "m" ++ text ++ "\x1b[0m"

namespace Fault

/-- What the header of a report calls a fault. -/
def title (fault : Fault) : String :=
  match fault.stage with
  | .lexical => coloured 31 "Lexical Error"
  | .parse => coloured 33 "Parse Error"
  | .evaluation => coloured 35 "Runtime Error"

/-- The name of a source that has none. -/
def defaultName : String := "<repl>"

/-- What a report shows at a location of the source of the given name. -/
def excerptAt (fault : Fault) (name : Option String) (l : Location) : Excerpt where
  location := name.getD defaultName ++ ":" ++ toString l.line ++ ":" ++ toString l.column
  note := fault.help.map (coloured 36 "help" ++ ": " ++ ·)

/-- The report of a fault that has the given place. -/
def diagnostic (fault : Fault) (place : Place) (source : String) (name : Option String) : Diagnostic where
  header := fault.title ++ ": " ++ fault.message
  excerpt := (Location.ofOffset? source place.span.start).map (fault.excerptAt name)

/-- Reports a fault; one without a place is only written out. -/
def report (fault : Fault) (source : String) (name : Option String) : Emission :=
  match fault.place? with
  | some place => .report (fault.diagnostic place source name)
  | none => .err (fault.message ++ "\n")

end Fault

/-- What a program writes, in order. -/
abbrev Transcript := List Emission

namespace Transcript

/-- The text on the output channel. -/
def output (t : Transcript) : String :=
  t.foldr (fun | .out text, rest => text ++ rest | _, rest => rest) ""

/-- The text on the error channel, reports and log lines left out. -/
def errors (t : Transcript) : String :=
  t.foldr (fun | .err text, rest => text ++ rest | _, rest => rest) ""

def reports (t : Transcript) : List Diagnostic :=
  t.filterMap fun | .report d => some d | _ => none

def events (t : Transcript) : List Event :=
  t.filterMap fun | .log e => some e | _ => none

/-- Leaves out the events that a verbosity does not show. -/
def atVerbosity (t : Transcript) (verbosity : Nat) : Transcript :=
  t.filter fun | .log e => e.detail.verbosity ≤ verbosity | _ => true

end Transcript

end Blockscript
