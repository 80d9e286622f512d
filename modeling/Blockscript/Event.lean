/-!
# Events

Steps of a run that a log can show.
-/

namespace Blockscript

inductive Event where
  | scanned (tokens lines : Nat)
  | parsed (statements : Nat)
  | pushed (scope enclosing : Nat)
  | popped (scope : Nat)
  /-- A name that no scope binds was read as null. -/
  | unresolved (name : String) (line : Nat)
deriving DecidableEq

namespace Event

/-- Traces are finer than debugging messages. -/
inductive Detail where
  | debug
  | trace
deriving DecidableEq

def detail : Event → Detail
  | scanned .. => .debug
  | parsed .. => .debug
  | pushed .. => .trace
  | popped .. => .trace
  | unresolved .. => .debug

def Detail.name : Detail → String
  | debug => "DEBUG"
  | trace => "TRACE"

/-- How often verbosity must be asked for until a detail is shown. -/
def Detail.verbosity : Detail → Nat
  | debug => 1
  | trace => 2

/-- The message of a log line and its fields. -/
def message : Event → String
  | scanned tokens lines =>
    "scan finished tokens=" ++ toString tokens ++ " lines=" ++ toString lines
  | parsed statements => "parsed program statements=" ++ toString statements
  | pushed scope enclosing =>
    "push scope scope=" ++ toString scope ++ " enclosing=" ++ toString enclosing
  | popped scope => "pop scope scope=" ++ toString scope
  | unresolved name line =>
    "unresolved variable reads as null name=" ++ name ++ " line=" ++ toString line

def logLine (e : Event) : String :=
  e.detail.name ++ " " ++ e.message

end Event

end Blockscript
