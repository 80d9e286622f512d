import Blockscript.Number.Text

/-!
# Values

What expressions evaluate to and variables hold.
-/

namespace Blockscript

inductive Value where
  | null
  | bool (b : Bool)
  | number (x : Float)
  | string (s : String)
deriving DecidableEq, Inhabited

namespace Value

/-- Null is false, a truth value is itself, and every number and string is true. -/
def truthy : Value → Bool
  | null => false
  | bool b => b
  | number _ => true
  | string _ => true

/-- Equality inside the language: values of different kinds differ, and numbers compare as numbers, so zero equals its negative and what is not a number equals nothing. -/
def equivalent : Value → Value → Bool
  | null, null => true
  | bool a, bool b => a == b
  | number x, number y => x == y
  | string s, string t => s == t
  | _, _ => false

def number? : Value → Option Float
  | number x => some x
  | _ => none

def isString : Value → Bool
  | string _ => true
  | _ => false

/-- How a value is printed and joined to a string. -/
def text : Value → String
  | null => "null"
  | bool true => "true"
  | bool false => "false"
  | number x => Number.text x
  | string s => s

end Value

end Blockscript
