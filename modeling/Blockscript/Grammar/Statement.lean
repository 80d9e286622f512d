import Blockscript.Grammar.Expression

/-!
# Parsing statements

A program is a sequence of declarations, blocks and expressions. A declaration ends with a semicolon; after an expression the semicolon may be left out.
-/

namespace Blockscript.Grammar

/-- The semicolon of a declaration. -/
def declarationEnd (ending : Place) (opening name : Token) (initializer : Option Expr) :
    (ts : List Token) → Answer Stmt (ts.length + 1)
  | [] => .error ⟨ending, .missingSemicolon⟩
  | t :: rest =>
    if t.kind = .semicolon then
      .ok ⟨.var name initializer (opening.span.through t.span), rest, Nat.lt_succ_of_lt (Nat.lt_succ_self _)⟩
    else .error ⟨t.place, .missingSemicolon⟩

/-- What follows the name of a declaration: a value or nothing, and the semicolon. -/
def declarationValue (ending : Place) (opening name : Token) (ts : List Token) :
    Answer Stmt (ts.length + 1) :=
  match ts with
  | [] => declarationEnd ending opening name none []
  | t :: rest =>
    if t.kind = .assign then
      match assignment ending rest with
      | .error m => .error m
      | .ok p =>
        match declarationEnd ending opening name (some p.value) p.rest with
        | .error m => .error m
        | .ok q => .ok (q.widen (by have := p.shorter; simp only [List.length_cons]; omega))
    else declarationEnd ending opening name none (t :: rest)

/-- A declaration after its opening word. -/
def declaration (ending : Place) (opening : Token) (ts : List Token) : Answer Stmt (ts.length + 1) :=
  match ts with
  | [] => .error ⟨ending, .missingName⟩
  | name :: rest =>
    if name.kind = .identifier then
      match declarationValue ending opening name rest with
      | .error m => .error m
      | .ok p => .ok (p.widen (by simp only [List.length_cons]; omega))
    else .error ⟨name.place, .missingName⟩

/-- An expression with or without a semicolon. -/
def expressionStatement (ending : Place) (ts : List Token) : Answer Stmt ts.length :=
  match assignment ending ts with
  | .error m => .error m
  | .ok ⟨e, [], h⟩ => .ok ⟨.expression e e.span, [], h⟩
  | .ok ⟨e, t :: rest, h⟩ =>
    if t.kind = .semicolon then
      .ok (.past (.expression e (e.span.through t.span)) h)
    else .ok ⟨.expression e e.span, t :: rest, h⟩

mutual

def statement (ending : Place) (ts : List Token) : Answer Stmt ts.length :=
  match ts with
  | [] => expressionStatement ending []
  | t :: rest =>
    if t.kind = .varWord then declaration ending t rest
    else if t.kind = .leftBrace then
      match blockBody ending rest with
      | .error m => .error m
      | .ok ⟨(body, closing), after, h⟩ =>
        .ok ⟨.block body (t.span.through closing.span), after, Nat.lt_succ_of_lt h⟩
    else if t.kind.isReserved then .error ⟨t.place, .reservedWord t.lexeme⟩
    else expressionStatement ending (t :: rest)
termination_by 2 * ts.length

/-- The statements of a block after its opening brace, and the closing brace. -/
def blockBody (ending : Place) (ts : List Token) : Answer (List Stmt × Token) ts.length :=
  match ts with
  | [] => .error ⟨ending, .unclosedBlock⟩
  | t :: rest =>
    if t.kind = .rightBrace then .ok ⟨([], t), rest, Nat.lt_succ_self _⟩
    else
      match statement ending (t :: rest) with
      | .error m => .error m
      | .ok p =>
        have := p.shorter
        match blockBody ending p.rest with
        | .error m => .error m
        | .ok q => .ok ⟨(p.value :: q.value.1, q.value.2), q.rest, Nat.lt_trans q.shorter p.shorter⟩
termination_by 2 * ts.length + 1
decreasing_by
  · exact Nat.lt_succ_self _
  · omega

end

/-- Statements up to the end of the tokens. -/
def statements (ending : Place) (ts : List Token) : Except Misparse (List Stmt) :=
  match ts with
  | [] => .ok []
  | t :: rest =>
    match statement ending (t :: rest) with
    | .error m => .error m
    | .ok p =>
      match statements ending p.rest with
      | .error m => .error m
      | .ok more => .ok (p.value :: more)
termination_by ts.length
decreasing_by exact p.shorter

end Blockscript.Grammar

namespace Blockscript

open Grammar

/-- The program that a list of tokens consists of. -/
def parseProgram (tokens : List Token) : Except Fault (List Stmt) :=
  match statements (endPlace tokens) tokens with
  | .error m => .error m.fault
  | .ok program => .ok program

end Blockscript
