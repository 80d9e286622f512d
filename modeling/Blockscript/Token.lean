import Blockscript.Place
import Blockscript.Value

/-!
# Tokens

The words of a source text. Two kinds are never read from a text: `ignore` marks what lies between words and `undefined` stands for no word at all. Lists of tokens made by other means may hold them.
-/

namespace Blockscript

inductive Kind where
  | semicolon | comma | leftBrace | rightBrace | leftParen | rightParen
  | add | subtract | multiply | divide | or
  | lessThan | lessEqual | greaterThan | greaterEqual | assign | equivalent | not | notEqual
  | string | number | identifier
  | ifWord | elseWord | forWord | whileWord | trueWord | falseWord
  | funWord | returnWord | varWord | printWord | nullWord
  | ignore | undefined
deriving DecidableEq, Inhabited

namespace Kind

/-- The name of a kind in a token listing. -/
def name : Kind → String
  | semicolon => "Semicolon"
  | comma => "Comma"
  | leftBrace => "LeftBrace"
  | rightBrace => "RightBrace"
  | leftParen => "LeftParen"
  | rightParen => "RightParen"
  | add => "Add"
  | subtract => "Subtract"
  | multiply => "Multiply"
  | divide => "Divide"
  | or => "Or"
  | lessThan => "LessThan"
  | lessEqual => "LessEqual"
  | greaterThan => "GreaterThan"
  | greaterEqual => "GreaterEqual"
  | assign => "Assign"
  | equivalent => "Equivalent"
  | not => "Not"
  | notEqual => "NotEqual"
  | string => "String"
  | number => "Number"
  | identifier => "Identifier"
  | ifWord => "If"
  | elseWord => "Else"
  | forWord => "For"
  | whileWord => "While"
  | trueWord => "True"
  | falseWord => "False"
  | funWord => "Fun"
  | returnWord => "Return"
  | varWord => "Var"
  | printWord => "Print"
  | nullWord => "Null"
  | ignore => "Ignore"
  | undefined => "Undefined"

/-- All kinds, in the order of their declaration. -/
def all : List Kind :=
  [semicolon, comma, leftBrace, rightBrace, leftParen, rightParen,
    add, subtract, multiply, divide, or,
    lessThan, lessEqual, greaterThan, greaterEqual, assign, equivalent, not, notEqual,
    string, number, identifier,
    ifWord, elseWord, forWord, whileWord, trueWord, falseWord,
    funWord, returnWord, varWord, printWord, nullWord,
    ignore, undefined]

/-- The kind of a name, if there is one. -/
def ofName? (name : String) : Option Kind :=
  all.find? (·.name == name)

theorem ofName?_name (kind : Kind) : ofName? kind.name = some kind := by
  cases kind <;> rfl

/-- Words that are kept for statements the language does not have. -/
def isReserved : Kind → Bool
  | ifWord | elseWord | forWord | whileWord | funWord | returnWord | printWord => true
  | _ => false

/-- Whether an expression can begin with a token of this kind. -/
def startsExpression : Kind → Bool
  | number | string | trueWord | falseWord | nullWord | identifier | leftParen | not | subtract => true
  | _ => false

end Kind

/-- A word of the source: its kind, its exact text, its place, and the value of a number or string. -/
structure Token where
  kind : Kind
  lexeme : String
  place : Place
  literal : Option Value := none
deriving DecidableEq, Inhabited

namespace Token

abbrev line (t : Token) : Nat := t.place.line

abbrev span (t : Token) : Span := t.place.span

/-- One line of a token listing: the line number in four columns, the kind, the text, and the value in parentheses. -/
def listing (t : Token) : String :=
  let number := toString t.line
  let padded := String.ofList (List.replicate (4 - number.length) ' ') ++ number
  let value := match t.literal with
    | some v => " (" ++ v.text ++ ")"
    | none => ""
  padded ++ " " ++ t.kind.name ++ " " ++ t.lexeme ++ value

end Token

end Blockscript
