import Blockscript.Token

/-!
# Expressions and statements

Operators and names keep their tokens, so that a fault can cite the place and the text. Every node but a reference to a variable keeps the range of the source that it covers.
-/

namespace Blockscript

inductive Expr where
  | literal (value : Value) (span : Span)
  | grouping (inner : Expr) (span : Span)
  | unary (operator : Token) (right : Expr) (span : Span)
  | binary (left : Expr) (operator : Token) (right : Expr) (span : Span)
  | reference (name : Token)
  | assign (name : Token) (value : Expr) (span : Span)
deriving DecidableEq, Inhabited

namespace Expr

def span : Expr → Span
  | literal _ span => span
  | grouping _ span => span
  | unary _ _ span => span
  | binary _ _ _ span => span
  | reference name => name.span
  | assign _ _ span => span

/-- A unary operation, from its operator to the end of its operand. -/
def ofUnary (operator : Token) (right : Expr) : Expr :=
  unary operator right (operator.span.through right.span)

/-- A binary operation, from the start of one operand to the end of the other. -/
def ofBinary (left : Expr) (operator : Token) (right : Expr) : Expr :=
  binary left operator right (left.span.through right.span)

/-- An assignment, from its name to the end of its value. -/
def ofAssign (name : Token) (value : Expr) : Expr :=
  assign name value (name.span.through value.span)

@[simp] theorem span_ofUnary (operator : Token) (right : Expr) :
    (ofUnary operator right).span = operator.span.through right.span := rfl

@[simp] theorem span_ofBinary (left : Expr) (operator : Token) (right : Expr) :
    (ofBinary left operator right).span = left.span.through right.span := rfl

@[simp] theorem span_ofAssign (name : Token) (value : Expr) :
    (ofAssign name value).span = name.span.through value.span := rfl

def isAssign : Expr → Bool
  | assign .. => true
  | _ => false

end Expr

inductive Stmt where
  | expression (expr : Expr) (span : Span)
  /-- A declaration, without a value if none is given. -/
  | var (name : Token) (initializer : Option Expr) (span : Span)
  | block (body : List Stmt) (span : Span)
deriving Inhabited

namespace Stmt

def span : Stmt → Span
  | expression _ span => span
  | var _ _ span => span
  | block _ span => span

mutual

def decEq : (a b : Stmt) → Decidable (a = b)
  | expression e span, expression e' span' =>
    decidable_of_iff (e = e' ∧ span = span') (by rw [expression.injEq])
  | var name value span, var name' value' span' =>
    decidable_of_iff (name = name' ∧ value = value' ∧ span = span') (by rw [var.injEq])
  | block body span, block body' span' =>
    have := decEqAll body body'
    decidable_of_iff (body = body' ∧ span = span') (by rw [block.injEq])
  | expression .., var .. | expression .., block .. | var .., expression .. | var .., block ..
  | block .., expression .. | block .., var .. => .isFalse nofun

def decEqAll : (as bs : List Stmt) → Decidable (as = bs)
  | [], [] => .isTrue rfl
  | a :: as, b :: bs =>
    have := decEq a b
    have := decEqAll as bs
    decidable_of_iff (a = b ∧ as = bs) (by rw [List.cons.injEq])
  | [], _ :: _ | _ :: _, [] => .isFalse nofun

end

instance : DecidableEq Stmt := decEq

end Stmt

end Blockscript
