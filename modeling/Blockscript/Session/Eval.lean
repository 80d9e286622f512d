import Blockscript.Expr
import Blockscript.Operator
import Blockscript.Session.Basic

/-!
# Running programs

Operands are evaluated from left to right before their operator is applied. A block runs in a scope of its own, which ends with the block, whether it succeeds or not. A program answers the values of its expression statements in order, those of assignments left out.
-/

namespace Blockscript

/-- Binds a name in the current scope. -/
def Session.define (s : Session) (name : String) (value : Value) : Run Unit :=
  match s.store.define s.current name value with
  | .ok store => .done () { s with store }
  | .error fault => .failed fault s

/-- Assigns to a name as seen from the current scope. -/
def Session.assign (s : Session) (name : Token) (value : Value) : Run Value :=
  match s.store.assign s.current name value with
  | .ok store => .done value { s with store }
  | .error fault => .failed fault s

/-- Evaluates an expression. A name that no scope binds reads as null. -/
def Expr.eval : Expr → Session → Run Value
  | .literal value _, s => .done value s
  | .grouping inner _, s => inner.eval s
  | .unary operator right _, s =>
    (right.eval s).andThen fun value s => .ofExcept (Operator.applyUnary operator value) s
  | .binary left operator right _, s =>
    (left.eval s).andThen fun a s =>
      (right.eval s).andThen fun b s => .ofExcept (Operator.applyBinary operator a b) s
  | .reference name, s =>
    match s.store.get? s.current name.lexeme with
    | some value => .done value s
    | none => ⟨.ok .null, s, [.unresolved name.lexeme name.line]⟩
  | .assign name inner _, s =>
    (inner.eval s).andThen fun value s => s.assign name value

/-- The value of a declaration, null if none is written. -/
def Expr.evalOptional (e : Option Expr) (s : Session) : Run Value :=
  match e with
  | some e => e.eval s
  | none => .done .null s

mutual

/-- Runs a statement and answers the values that it prints. -/
def Stmt.exec : Stmt → Session → Run (List Value)
  | .expression e _, s =>
    (e.eval s).andThen fun value s => .done (if e.isAssign then [] else [value]) s
  | .var name initializer _, s =>
    (Expr.evalOptional initializer s).andThen fun value s =>
      (s.define name.lexeme value).andThen fun _ s => .done [] s
  | .block body _, s =>
    let inner := Stmt.execAll body s.enter
    ⟨inner.result, inner.session.leave s.current,
      s.enterEvents ++ inner.events ++ inner.session.leaveEvents⟩

/-- Runs statements one after another, up to the first fault. -/
def Stmt.execAll : List Stmt → Session → Run (List Value)
  | [], s => .done [] s
  | stmt :: rest, s =>
    (stmt.exec s).andThen fun values s =>
      (Stmt.execAll rest s).andThen fun more s => .done (values ++ more) s

end

/-- Evaluates an expression in any scope of a store. -/
def Store.eval (store : Store) (handle : Handle) (e : Expr) : Run Value :=
  e.eval ⟨store, handle⟩

end Blockscript
