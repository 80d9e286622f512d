import Blockscript.Proofs.Grammar.Segments

/-!
# Moved sources

Tokens, expressions and statements keep the places at which they stand in a source. When a text becomes part of another one, or is cut out of it, its lines and offsets change and nothing else does. Derivations do not look at places, so they carry over: the trees of moved tokens are the moved trees.
-/

namespace Blockscript

/-- A change of lines and offsets. -/
structure Move where
  line : Nat → Nat
  offset : Nat → Nat

namespace Move

/-- The move of a text behind another one with so many lines and characters. -/
def forward (lines offset : Nat) : Move := ⟨(· + lines), (· + offset)⟩

def back (lines offset : Nat) : Move := ⟨(· - lines), (· - offset)⟩

def span (m : Move) (s : Span) : Span := ⟨m.offset s.start, m.offset s.stop⟩

def place (m : Move) (p : Place) : Place := ⟨m.line p.line, m.span p.span⟩

def token (m : Move) (t : Token) : Token := { t with place := m.place t.place }

def expr (m : Move) : Expr → Expr
  | .literal value span => .literal value (m.span span)
  | .grouping inner span => .grouping (m.expr inner) (m.span span)
  | .unary operator right span => .unary (m.token operator) (m.expr right) (m.span span)
  | .binary left operator right span => .binary (m.expr left) (m.token operator) (m.expr right) (m.span span)
  | .reference name => .reference (m.token name)
  | .assign name value span => .assign (m.token name) (m.expr value) (m.span span)

mutual

def stmt (m : Move) : Stmt → Stmt
  | .expression e span => .expression (m.expr e) (m.span span)
  | .var name initializer span => .var (m.token name) (initializer.map m.expr) (m.span span)
  | .block body span => .block (m.stmts body) (m.span span)

def stmts (m : Move) : List Stmt → List Stmt
  | [] => []
  | stmt :: rest => m.stmt stmt :: m.stmts rest

end

/-- The same fault at the moved place. -/
def fault (m : Move) : Fault → Fault
  | .lexical place message => .lexical (m.place place) message
  | .parse place message help => .parse (m.place place) message help
  | .invalidType place operator operands => .invalidType (m.place place) operator operands
  | .undefinedVariable place name => .undefinedVariable (m.place place) name
  | .releasedScope => .releasedScope

variable (m : Move)

@[simp] theorem kind_token (t : Token) : (m.token t).kind = t.kind := rfl

@[simp] theorem lexeme_token (t : Token) : (m.token t).lexeme = t.lexeme := rfl

@[simp] theorem span_through (first last : Span) : m.span (first.through last) = (m.span first).through (m.span last) :=
  rfl

theorem span_expr (e : Expr) : (m.expr e).span = m.span e.span := by
  cases e <;> rfl

theorem expr_ofUnary (operator : Token) (right : Expr) :
    m.expr (.ofUnary operator right) = .ofUnary (m.token operator) (m.expr right) := by
  rw [Expr.ofUnary, Expr.ofUnary, expr, span_expr, span_through]
  rfl

theorem expr_ofBinary (left : Expr) (operator : Token) (right : Expr) :
    m.expr (.ofBinary left operator right) = .ofBinary (m.expr left) (m.token operator) (m.expr right) := by
  rw [Expr.ofBinary, Expr.ofBinary, expr, span_expr, span_expr, span_through]

theorem expr_ofAssign (name : Token) (value : Expr) :
    m.expr (.ofAssign name value) = .ofAssign (m.token name) (m.expr value) := by
  rw [Expr.ofAssign, Expr.ofAssign, expr, span_expr, span_through]
  rfl

theorem back_forward_token (lines offset : Nat) (t : Token) :
    (back lines offset).token ((forward lines offset).token t) = t := by
  obtain ⟨kind, lexeme, ⟨line, start, stop⟩, literal⟩ := t
  simp [token, place, span, back, forward]

end Move

namespace Grammar

variable (m : Move) {ts : List Token}

theorem Constant.move {t : Token} {value : Value} (h : Constant t value) : Constant (m.token t) value := by
  cases h with
  | trueWord kind => exact .trueWord kind
  | falseWord kind => exact .falseWord kind
  | nullWord kind => exact .nullWord kind
  | number kind literal => exact .number kind literal
  | string kind literal => exact .string kind literal

theorem Derives.move {stratum : Stratum} {e : Expr} (h : Derives stratum ts e) :
    Derives stratum (ts.map m.token) (m.expr e) := by
  induction h with
  | assign target sign _ ih =>
      rw [Move.expr_ofAssign]
      exact .assign target sign ih
  | loosest _ ih => exact .loosest ih
  | operand joins _ ih => exact .operand joins ih
  | binary joins _ sign _ ihleft ihright =>
      rw [Move.expr_ofBinary, List.map_append]
      exact .binary joins ihleft sign ihright
  | unary sign _ ih =>
      rw [Move.expr_ofUnary]
      exact .unary sign ih
  | tightest _ ih => exact .tightest ih
  | literal constant => exact .literal (constant.move m)
  | name kind => exact .name kind
  | grouping opens closes _ ih =>
      rw [List.map_append]
      exact .grouping opens closes ih

theorem Initializer.move {initializer : Option Expr} (h : Initializer ts initializer) :
    Initializer (ts.map m.token) (initializer.map m.expr) := by
  cases h with
  | absent => exact .absent
  | present sign right => exact .present sign (right.move m)

theorem cover_map (h : ts ≠ []) : cover (ts.map m.token) = m.span (cover ts) := by
  have hlast := List.getLast?_eq_some_getLast h
  obtain ⟨first, rest, rfl⟩ := List.exists_cons_of_ne_nil h
  simp only [cover, List.head?_map, List.getLast?_map, hlast, List.head?_cons, Option.map_some]
  rfl

theorem Segments.move {segments : List (List Token)} {p : List Stmt} (h : Segments segments p) :
    Segments (segments.map (List.map m.token)) (m.stmts p) := by
  induction h with
  | nil => exact .nil
  | declaration opens target value closes _ ih =>
      rw [List.map_cons, Move.stmts, Move.stmt, ← cover_map m (by simp), List.map_append]
      exact .declaration opens target (value.move m) closes ih
  | block opens _ closes _ ihinner ih =>
      rw [List.map_cons, Move.stmts, Move.stmt, ← cover_map m (by simp), List.map_append, List.map_cons,
        List.map_flatten]
      exact .block opens ihinner closes ih
  | closed tree closes _ ih =>
      rw [List.map_cons, Move.stmts, Move.stmt, ← cover_map m (by simp), List.map_append]
      exact .closed (tree.move m) closes ih
  | bare tree greedy _ ih =>
      rw [List.map_cons, Move.stmts, Move.stmt, ← cover_map m tree.ne_nil]
      refine .bare (tree.move m) ?_ ih
      intro t ht
      rw [← List.map_flatten, List.head?_map] at ht
      obtain ⟨u, hu, rfl⟩ := Option.map_eq_some_iff.1 ht
      exact greedy u hu

end Grammar

end Blockscript
