import Blockscript.Token

/-!
# Faults

The reasons for which a text is not read or a program stops. Every fault but the use of a released scope has a place.
-/

namespace Blockscript

inductive Fault where
  | lexical (place : Place) (message : String)
  | parse (place : Place) (message : String) (help : Option String)
  /-- An operator met operands that it does not accept. -/
  | invalidType (place : Place) (operator : String) (operands : List Value)
  | undefinedVariable (place : Place) (name : String)
  /-- A scope was used after its end. -/
  | releasedScope
deriving DecidableEq, Inhabited

namespace Fault

/-- The stage a fault belongs to. -/
inductive Stage where
  | lexical
  | parse
  | evaluation
deriving DecidableEq

def stage : Fault → Stage
  | lexical .. => .lexical
  | parse .. => .parse
  | invalidType .. => .evaluation
  | undefinedVariable .. => .evaluation
  | releasedScope => .evaluation

def place? : Fault → Option Place
  | lexical place _ => some place
  | parse place _ _ => some place
  | invalidType place _ _ => some place
  | undefinedVariable place _ => some place
  | releasedScope => none

/-- An operator with its operands around it: behind it if there is one, on both sides if there are two. -/
def application (operator : String) : List Value → String
  | [operand] => operator ++ operand.text
  | [left, right] => left.text ++ operator ++ right.text
  | _ => operator

def message : Fault → String
  | lexical place text => "Error occurred on line " ++ toString place.line ++ " : " ++ text
  | parse place text _ => "Error occurred on line " ++ toString place.line ++ " : " ++ text
  | invalidType place operator operands =>
    "Invalid type on line " ++ toString place.line ++ " : " ++ application operator operands
  | undefinedVariable place name =>
    "Error occurred on line " ++ toString place.line ++ " : Undefined variable: " ++ name
  | releasedScope => "Scope handle used after its scope was released"

/-- What a report suggests to the author of the text. -/
def help : Fault → Option String
  | parse _ _ text => text
  | invalidType _ operator _ =>
    if operator = "+" then some "'+' accepts two numbers, or a string on either side"
    else some "this operator only accepts numbers"
  | undefinedVariable .. => some "variables must be declared with 'var' before they are assigned"
  | lexical .. => none
  | releasedScope => none

end Fault

end Blockscript
