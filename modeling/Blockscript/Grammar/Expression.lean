import Blockscript.Expr
import Blockscript.Grammar.Basic

/-!
# Parsing expressions

An assignment is a name, an equals sign and an assignment, or else a chain of binary operations. Chains have five levels, each binding tighter than the one before, and group from the left; below them stand unary operations, and at the bottom literals, names and parentheses.
-/

namespace Blockscript.Grammar

/-- The levels of binary operators, the loosest first. -/
inductive Level where
  | or | equality | comparison | term | factor
deriving DecidableEq

namespace Level

/-- Whether a kind is an operator of a level. -/
def admits : Level → Kind → Bool
  | or, .or => true
  | equality, .equivalent => true
  | equality, .notEqual => true
  | comparison, .greaterThan => true
  | comparison, .greaterEqual => true
  | comparison, .lessThan => true
  | comparison, .lessEqual => true
  | term, .subtract => true
  | term, .add => true
  | factor, .divide => true
  | factor, .multiply => true
  | _, _ => false

/-- The next tighter level, or none below the tightest. -/
def tighter : Level → Option Level
  | or => some equality
  | equality => some comparison
  | comparison => some term
  | term => some factor
  | factor => none

/-- How many levels there are from this one on. -/
def height : Level → Nat
  | or => 5
  | equality => 4
  | comparison => 3
  | term => 2
  | factor => 1

theorem height_le (level : Level) : level.height ≤ 5 := by
  cases level <;> decide

theorem height_tighter {l k : Level} (h : l.tighter = some k) : k.height + 1 = l.height := by
  cases l <;> simp only [tighter, Option.some.injEq, reduceCtorEq] at h <;> subst h <;> rfl

end Level

/-- Whether the tokens begin as an expression does. -/
def beginsExpression : List Token → Bool
  | [] => false
  | t :: _ => t.kind.startsExpression

mutual

/-- An assignment, or a chain of the loosest level. -/
def assignment (ending : Place) (ts : List Token) : Answer Expr ts.length :=
  match chain ending .or ts with
  | .error m => .error m
  | .ok ⟨left, [], h⟩ => .ok ⟨left, [], h⟩
  | .ok ⟨left, t :: rest, h⟩ =>
    have hrest : rest.length < ts.length := Nat.lt_of_succ_lt h
    if t.kind = .assign then
      match assignment ending rest with
      | .error m => .error m
      | .ok p =>
        match left with
        | .reference name => .ok ⟨.ofAssign name p.value, p.rest, Nat.lt_trans p.shorter hrest⟩
        | _ => .error ⟨t.place, .invalidTarget⟩
    else .ok ⟨left, t :: rest, h⟩
termination_by 20 * ts.length + 2 * Level.or.height + 4

/-- Operands of a level, joined by its operators. -/
def chain (ending : Place) (level : Level) (ts : List Token) : Answer Expr ts.length :=
  match operand ending level ts with
  | .error m => .error m
  | .ok p =>
    have := p.shorter
    match chainFrom ending level p.value p.rest with
    | .error m => .error m
    | .ok q => .ok (q.widen p.shorter)
termination_by 20 * ts.length + 2 * level.height + 3

/-- The rest of a chain whose beginning is known. -/
def chainFrom (ending : Place) (level : Level) (left : Expr) (ts : List Token) :
    Answer Expr (ts.length + 1) :=
  match ts with
  | [] => .ok ⟨left, [], Nat.zero_lt_succ _⟩
  | op :: rest =>
    if level.admits op.kind then
      if beginsExpression rest then
        match operand ending level rest with
        | .error m => .error m
        | .ok p =>
          have := p.shorter
          match chainFrom ending level (.ofBinary left op p.value) p.rest with
          | .error m => .error m
          | .ok q => .ok (q.widen (by simp only [List.length_cons]; omega))
      else .error ⟨op.place, .missingOperand op.lexeme⟩
    else .ok ⟨left, op :: rest, Nat.lt_succ_self _⟩
termination_by 20 * ts.length
decreasing_by
  all_goals
    have := level.height_le
    simp only [List.length_cons]
    omega

/-- An operand of a level: a chain of the next one, or a unary operation below the tightest. -/
def operand (ending : Place) (level : Level) (ts : List Token) : Answer Expr ts.length :=
  match h : level.tighter with
  | some next =>
    have := Level.height_tighter h
    chain ending next ts
  | none => unary ending ts
termination_by 20 * ts.length + 2 * level.height + 2

/-- Unary operators in front of a primary expression. -/
def unary (ending : Place) (ts : List Token) : Answer Expr ts.length :=
  match ts with
  | [] => .error ⟨ending, .missingExpression⟩
  | t :: rest =>
    if t.kind = .not ∨ t.kind = .subtract then
      match unary ending rest with
      | .error m => .error m
      | .ok p => .ok ⟨.ofUnary t p.value, p.rest, Nat.lt_succ_of_lt p.shorter⟩
    else primary ending t rest
termination_by 20 * ts.length + 1

/-- A literal, a name or an expression in parentheses, beginning with the token `t`. -/
def primary (ending : Place) (t : Token) (rest : List Token) : Answer Expr (rest.length + 1) :=
  match t.kind with
  | .falseWord => .ok ⟨.literal (.bool false) t.span, rest, Nat.lt_succ_self _⟩
  | .trueWord => .ok ⟨.literal (.bool true) t.span, rest, Nat.lt_succ_self _⟩
  | .nullWord => .ok ⟨.literal .null t.span, rest, Nat.lt_succ_self _⟩
  | .number | .string =>
    match t.literal with
    | some value => .ok ⟨.literal value t.span, rest, Nat.lt_succ_self _⟩
    | none => .error ⟨t.place, .valuelessLiteral⟩
  | .identifier => .ok ⟨.reference t, rest, Nat.lt_succ_self _⟩
  | .leftParen => parenthesised ending t rest
  | kind => .error ⟨t.place, .noExpression kind t.lexeme⟩
termination_by 20 * (rest.length + 1)
decreasing_by
  have := Level.or.height_le
  omega

/-- An expression and a closing parenthesis, after the opening one. -/
def parenthesised (ending : Place) (opening : Token) (ts : List Token) :
    Answer Expr (ts.length + 1) :=
  match ts with
  | [] => .error ⟨ending, .missingExpression⟩
  | t :: rest =>
    if t.kind = .rightParen then
      .error ⟨⟨opening.line, opening.span.through t.span⟩, .emptyParentheses⟩
    else
      match assignment ending (t :: rest) with
      | .error m => .error m
      | .ok ⟨_, [], _⟩ => .error ⟨ending, .unclosedParenthesis⟩
      | .ok ⟨inner, closing :: after, h⟩ =>
        if closing.kind = .rightParen then
          .ok ((Parsed.past (.grouping inner (opening.span.through closing.span)) h).widen
            (Nat.le_succ _))
        else .error ⟨closing.place, .unclosedParenthesis⟩
termination_by 20 * ts.length + 2 * Level.or.height + 5

end

end Blockscript.Grammar

namespace Blockscript

open Grammar

/-- The expression that a list of tokens consists of. -/
def parseExpression (tokens : List Token) : Except Fault Expr :=
  match assignment (endPlace tokens) tokens with
  | .error m => .error m.fault
  | .ok ⟨e, [], _⟩ => .ok e
  | .ok ⟨_, t :: _, _⟩ => .error (Misparse.fault ⟨t.place, .trailingToken t.lexeme⟩)

end Blockscript
