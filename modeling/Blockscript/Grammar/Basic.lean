import Blockscript.Fault

/-!
# What a parser answers

A parser takes tokens from the front of a list. Its answer holds what it found and the tokens that follow, and a proof that these are fewer than some bound, so a parser that calls another one on the rest always ends.
-/

namespace Blockscript.Grammar

/-- Why tokens do not fit the grammar. Where a text is kept, it is that of the token at fault. -/
inductive Problem where
  | trailingToken (lexeme : String)
  | missingName
  | missingSemicolon
  | reservedWord (lexeme : String)
  | unclosedBlock
  | invalidTarget
  | missingOperand (operator : String)
  | missingExpression
  | valuelessLiteral
  | emptyParentheses
  | unclosedParenthesis
  | noExpression (kind : Kind) (lexeme : String)
deriving DecidableEq

namespace Problem

def message : Problem → String
  | trailingToken lexeme => "Unexpected '" ++ lexeme ++ "' after expression"
  | missingName => "Expected variable name after 'var'"
  | missingSemicolon => "Expected ';' after variable declaration"
  | reservedWord lexeme => "'" ++ lexeme ++ "' is reserved but not supported"
  | unclosedBlock => "Expected '\x7d' after block"
  | invalidTarget => "Invalid assignment target"
  | missingOperand operator => "Expected expression after '" ++ operator ++ "'"
  | missingExpression => "Expected expression, found end of input"
  | valuelessLiteral => "Literal token without a value"
  | emptyParentheses => "Empty parentheses are not allowed"
  | unclosedParenthesis => "Expected ')' after expression"
  | noExpression _ lexeme => "Expected expression, found '" ++ lexeme ++ "'"

/-- The advice for a token that no expression begins with. -/
def kindHelp (kind : Kind) : String :=
  if kind = .rightParen then "Found ')' without matching '('. Check for unbalanced parentheses."
  else if kind = .rightBrace then
    "Found '\x7d' without matching '\x7b'. Check for unbalanced braces."
  else if kind.isReserved then "This keyword is reserved but not supported."
  else "Expected a literal value, variable, or parenthesized expression here."

def help : Problem → Option String
  | trailingToken _ => none
  | missingName => some "Declarations look like: var x = 1;"
  | missingSemicolon => none
  | reservedWord _ =>
    some "Only expressions, 'var' declarations and '\x7b \x7d' blocks can be evaluated."
  | unclosedBlock =>
    some "Block statements must be closed with '\x7d' after the opening '\x7b'."
  | invalidTarget => some "Only variables can be assigned to, e.g. 'x = 10'."
  | missingOperand _ => none
  | missingExpression => some "Reached end of input while expecting an expression."
  | valuelessLiteral => none
  | emptyParentheses =>
    some "Parentheses must contain an expression. Use 'null' for a null value: (null)"
  | unclosedParenthesis =>
    some "Every opening parenthesis '(' must have a matching closing parenthesis ')'."
  | noExpression kind _ => some (kindHelp kind)

end Problem

/-- Tokens refused at a place. -/
structure Misparse where
  place : Place
  problem : Problem
deriving DecidableEq

def Misparse.fault (m : Misparse) : Fault :=
  .parse m.place m.problem.message m.problem.help

/-- Something found at the front of a list of tokens, and the rest, shorter than `bound`. -/
structure Parsed (α : Type) (bound : Nat) where
  value : α
  rest : List Token
  shorter : rest.length < bound

namespace Parsed

variable {α : Type} {m n : Nat}

/-- The same under a weaker bound. -/
def widen (p : Parsed α m) (h : m ≤ n) : Parsed α n :=
  ⟨p.value, p.rest, Nat.lt_of_lt_of_le p.shorter h⟩

@[simp] theorem value_widen (p : Parsed α m) (h : m ≤ n) : (p.widen h).value = p.value := rfl

@[simp] theorem rest_widen (p : Parsed α m) (h : m ≤ n) : (p.widen h).rest = p.rest := rfl

/-- A value whose last token is the first of those that were left. -/
def past {t : Token} {rest : List Token} (value : α) (h : (t :: rest).length < n) : Parsed α n :=
  ⟨value, rest, Nat.lt_of_succ_lt h⟩

@[simp] theorem value_past {t : Token} {rest : List Token} (value : α)
    (h : (t :: rest).length < n) : (past value h).value = value := rfl

@[simp] theorem rest_past {t : Token} {rest : List Token} (value : α)
    (h : (t :: rest).length < n) : (past value h).rest = rest := rfl

end Parsed

/-- What a parser answers. -/
abbrev Answer (α : Type) (bound : Nat) := Except Misparse (Parsed α bound)

/-- Where a fault at the end of the tokens is placed: behind the last one, on its line. -/
def endPlace (tokens : List Token) : Place :=
  match tokens.getLast? with
  | some t => ⟨t.line, Span.single t.span.stop⟩
  | none => ⟨1, Span.single 0⟩

end Blockscript.Grammar
