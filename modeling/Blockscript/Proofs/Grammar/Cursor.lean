import Blockscript.Grammar.Statement

/-!
# Parsers with a cursor

The parsers of the grammar take tokens from the front of a list, and their answers hold a proof that fewer are left. Here are parsers of another kind: all the tokens stay in place, and a cursor moves over them. Such a parser looks at the token under the cursor or at the one before it, and there may be none. It calls others and goes round in loops, and nothing in its form says that the cursor gets on.

Such a parser is given a depth, to which its calls may be nested and its loops may go round. A run that would go deeper has no result, so a run that goes on for ever has none at any depth. Otherwise it ends with a value, with a fault, or with a crash, where a token was to be read that is not there or an offset was too great to be counted on. It leaves a record of all that its cursor did.
-/

namespace Blockscript.Grammar.Cursor

/-- What the cursor did, and where it stood. -/
inductive Mark where
  /-- It was moved. -/
  | moved (cursor : Nat)
  /-- The token before it was read. -/
  | lookedBack (cursor : Nat)
  /-- An expression, a declaration or an operand was begun. -/
  | began (cursor : Nat)
  /-- One of these was found. -/
  | found (start cursor : Nat)

/-- Where the cursor stood at the time. -/
def Mark.cursor : Mark → Nat
  | moved cursor | lookedBack cursor | began cursor | found _ cursor => cursor

structure State where
  cursor : Nat
  /-- The latest mark first. -/
  log : List Mark

def State.start : State := ⟨0, []⟩

def State.mark (s : State) (m : Mark) : State := { s with log := m :: s.log }

def State.move (s : State) : State := ⟨s.cursor + 1, .moved (s.cursor + 1) :: s.log⟩

/-- Why a run ends without a value. -/
inductive Halt where
  | fault (fault : Fault)
  | crash

abbrev Walk (α : Type) := ExceptT Halt (StateT State Option) α

/-- The greatest offset that can be counted on: the largest number of 64 bits. -/
def greatestOffset : Nat := 18446744073709551615

section

variable {α : Type} (ts : List Token)

/-- The depth is used up. -/
def exhausted : Walk α := fun _ => none

def refuse (place : Place) (problem : Problem) : Walk α :=
  throw (.fault (Misparse.fault ⟨place, problem⟩))

def peek : Walk (Option Token) := do
  let s ← get
  return ts[s.cursor]?

def previous : Walk Token := do
  let s ← get
  set (s.mark (.lookedBack s.cursor))
  match s.cursor with
  | 0 => throw .crash
  | before + 1 =>
    match ts[before]? with
    | some t => return t
    | none => throw .crash

def advance : Walk Unit := do
  let s ← get
  if s.cursor < ts.length then set s.move

/-- Moves past a token of one of some kinds. -/
def accept (kinds : Kind → Bool) : Walk Bool := do
  match ← peek ts with
  | some t =>
    if kinds t.kind then
      advance ts
      return true
    else return false
  | none => return false

def lastLine : Nat :=
  (ts.getLast?.map (·.line)).getD 1

/-- The range behind the last token. -/
def endSpan : Walk Span :=
  match ts.getLast? with
  | some t => if t.span.stop < greatestOffset then return .single t.span.stop else throw .crash
  | none => return .single 0

def refuseAtEnd (problem : Problem) : Walk α := do
  let span ← endSpan ts
  refuse ⟨lastLine ts, span⟩ problem

def refuseHere (problem : Problem) : Walk α := do
  match ← peek ts with
  | some t => refuse t.place problem
  | none => refuseAtEnd ts problem

def consume (kind : Kind) (problem : Problem) : Walk Token := do
  if ← accept ts (· == kind) then previous ts
  else refuseHere ts problem

/-- Marks the beginning of something, and tells where it is. -/
def noteBegun : Walk Nat := do
  let s ← get
  set (s.mark (.began s.cursor))
  return s.cursor

/-- Marks the end of something that was found. -/
def noteFound (start : Nat) : Walk Unit := do
  let s ← get
  set (s.mark (.found start s.cursor))

/-! ### Expressions -/

mutual

def expression : Nat → Walk Expr
  | 0 => exhausted
  | depth + 1 => do
    let start ← noteBegun
    let e ← assignment depth
    noteFound start
    return e

def assignment : Nat → Walk Expr
  | 0 => exhausted
  | depth + 1 => do
    let left ← chain depth .or
    if ← accept ts (· == .assign) then
      let equals ← previous ts
      let value ← assignment depth
      match left with
      | .reference name => return .ofAssign name value
      | _ => refuse equals.place .invalidTarget
    else return left

def chain : Nat → Level → Walk Expr
  | 0, _ => exhausted
  | depth + 1, level => do
    let first ← operand depth level
    chainFrom depth level first

/-- The rest of a chain whose beginning is known. -/
def chainFrom : Nat → Level → Expr → Walk Expr
  | 0, _, _ => exhausted
  | depth + 1, level, left => do
    if ← accept ts level.admits then
      let op ← previous ts
      let next ← peek ts
      if next.any (·.kind.startsExpression) then
        let right ← operand depth level
        chainFrom depth level (.ofBinary left op right)
      else refuse op.place (.missingOperand op.lexeme)
    else return left

def operand : Nat → Level → Walk Expr
  | 0, _ => exhausted
  | depth + 1, level => do
    let start ← noteBegun
    let e ← (match level.tighter with
      | some next => chain depth next
      | none => unary depth)
    noteFound start
    return e

def unary : Nat → Walk Expr
  | 0 => exhausted
  | depth + 1 => do
    if ← accept ts (fun kind => kind == .not || kind == .subtract) then
      let op ← previous ts
      let right ← unary depth
      return .ofUnary op right
    else primary depth

def primary : Nat → Walk Expr
  | 0 => exhausted
  | depth + 1 => do
    match ← peek ts with
    | none => refuseAtEnd ts .missingExpression
    | some t =>
      advance ts
      match t.kind with
      | .falseWord => return .literal (.bool false) t.span
      | .trueWord => return .literal (.bool true) t.span
      | .nullWord => return .literal .null t.span
      | .number | .string =>
        match t.literal with
        | some value => return .literal value t.span
        | none => refuse t.place .valuelessLiteral
      | .identifier => return .reference t
      | .leftParen => parenthesised depth t
      | kind => refuse t.place (.noExpression kind t.lexeme)

def parenthesised : Nat → Token → Walk Expr
  | 0, _ => exhausted
  | depth + 1, opening => do
    match ← peek ts with
    | some t =>
      if t.kind = .rightParen then refuse ⟨opening.line, opening.span.through t.span⟩ .emptyParentheses
      else grouping depth opening
    | none => grouping depth opening

def grouping : Nat → Token → Walk Expr
  | 0, _ => exhausted
  | depth + 1, opening => do
    let inner ← expression depth
    let closing ← consume ts .rightParen .unclosedParenthesis
    return .grouping inner (opening.span.through closing.span)

end

/-- The expression that all the tokens are to be. -/
def wholeExpression (depth : Nat) : Walk Expr := do
  let e ← expression ts depth
  match ← peek ts with
  | some t => refuse t.place (.trailingToken t.lexeme)
  | none => return e

/-! ### Statements -/

/-- A declaration behind its opening word. -/
def varDeclaration (depth : Nat) : Walk Stmt := do
  let opening ← previous ts
  let name ← consume ts .identifier .missingName
  let initializer ← initializer?
  let _ ← consume ts .semicolon .missingSemicolon
  let last ← previous ts
  return .var name initializer (opening.span.through last.span)
where
  initializer? : Walk (Option Expr) := do
    if ← accept ts (· == .assign) then
      let value ← expression ts depth
      return some value
    else return none

def expressionStatement (depth : Nat) : Walk Stmt := do
  let e ← expression ts depth
  let _ ← accept ts (· == .semicolon)
  let last ← previous ts
  return .expression e (e.span.through last.span)

def blockEnd (body : List Stmt) : Walk (List Stmt) := do
  let _ ← consume ts .rightBrace .unclosedBlock
  return body

mutual

def declaration : Nat → Walk Stmt
  | 0 => exhausted
  | depth + 1 => do
    let start ← noteBegun
    let stmt ← declarationOrStatement depth
    noteFound start
    return stmt

def declarationOrStatement : Nat → Walk Stmt
  | 0 => exhausted
  | depth + 1 => do
    if ← accept ts (· == .varWord) then varDeclaration ts depth else statement depth

def statement : Nat → Walk Stmt
  | 0 => exhausted
  | depth + 1 => do
    if ← accept ts (· == .leftBrace) then
      let opening ← previous ts
      let body ← block depth
      let closing ← previous ts
      return .block body (opening.span.through closing.span)
    else
      match ← peek ts with
      | some t =>
        if t.kind.isReserved then refuse t.place (.reservedWord t.lexeme) else expressionStatement ts depth
      | none => expressionStatement ts depth

def block : Nat → Walk (List Stmt)
  | 0 => exhausted
  | depth + 1 => blockFrom depth []

/-- The rest of a block of which some statements are known. -/
def blockFrom : Nat → List Stmt → Walk (List Stmt)
  | 0, _ => exhausted
  | depth + 1, body => do
    match ← peek ts with
    | some t =>
      if t.kind = .rightBrace then blockEnd ts body
      else
        let stmt ← declaration depth
        blockFrom depth (body ++ [stmt])
    | none => blockEnd ts body

end

/-- The rest of a program of which some statements are known. -/
def programFrom : Nat → List Stmt → Walk (List Stmt)
  | 0, _ => exhausted
  | depth + 1, program => do
    match ← peek ts with
    | some _ =>
      let stmt ← declaration ts depth
      programFrom depth (program ++ [stmt])
    | none => return program

/-- The statements that all the tokens are to be. -/
def wholeProgram (depth : Nat) : Walk (List Stmt) :=
  programFrom ts depth []

end

end Blockscript.Grammar.Cursor
