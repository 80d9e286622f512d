import Blockscript.Proofs.Grammar.Punctuation
import Blockscript.Proofs.Session.Joined

/-!
# Single expressions

The tokens of one expression are also the tokens of a program, whose one statement is that expression. They cannot be taken for anything else, and since no expression ends with a semicolon, a program of one expression that does not end with one either is made of these tokens alone. So it does not matter whether a text is evaluated as an expression or run as a program, except that a program does not answer the value of an assignment.
-/

namespace Blockscript

open Grammar

/-! ### Parsing -/

theorem Grammar.Derives.getLast?_ne_semicolon {stratum : Stratum} {ts : List Token} {e : Expr}
    (h : Derives stratum ts e) : ∀ t ∈ ts.getLast?, t.kind ≠ .semicolon := by
  intro t ht hkind
  obtain ⟨last, hlast, hends⟩ := h.endsExpression
  obtain rfl : last = t := Option.mem_unique hlast ht
  rw [hkind] at hends
  cases hends

theorem parseProgram_of_derives {ts : List Token} {e : Expr} (h : Derives .assignment ts e) :
    parseProgram ts = .ok [.expression e e.span] := by
  rw [parseProgram_eq_ok_iff, h.span_eq]
  exact ⟨[ts], List.flatten_singleton, .bare h (by simp) .nil⟩

/-- The tokens of a program of one expression are those of the expression, unless a semicolon ends them. -/
theorem derives_of_parseProgram {ts : List Token} {e : Expr} {span : Span}
    (h : parseProgram ts = .ok [.expression e span]) (hlast : ∀ t ∈ ts.getLast?, t.kind ≠ .semicolon) :
    Derives .assignment ts e := by
  obtain ⟨segments, rfl, hsegments⟩ := parseProgram_eq_ok_iff.1 h
  cases hsegments with
  | @closed closing ts _ _ _ tree closes others =>
      cases others
      rw [List.flatten_singleton] at hlast
      exact absurd closes (hlast closing List.getLast?_concat)
  | bare tree greedy others =>
      cases others
      rwa [List.flatten_singleton]

theorem parseExpression_iff_parseProgram {ts : List Token} {e : Expr} : parseExpression ts = .ok e ↔
    ts ≠ [] ∧ (∀ t ∈ ts.getLast?, t.kind ≠ .semicolon) ∧ ∃ span, parseProgram ts = .ok [.expression e span] := by
  rw [parseExpression_ok_iff]
  constructor
  · intro h
    exact ⟨h.ne_nil, h.getLast?_ne_semicolon, e.span, parseProgram_of_derives h⟩
  · rintro ⟨-, hlast, span, h⟩
    exact derives_of_parseProgram h hlast

/-! ### Running -/

theorem Stmt.execAll_singleton (stmt : Stmt) (s : Session) : Stmt.execAll [stmt] s = stmt.exec s := by
  simp only [Stmt.execAll, Run.andThen_done, List.append_nil]
  rw [Run.andThen_done_map fun values => values]
  generalize stmt.exec s = run
  obtain ⟨result, session, events⟩ := run
  cases result <;> rfl

/-- An expression that stands as a statement: its value is answered unless it is an assignment. -/
theorem Stmt.exec_expression (e : Expr) (span : Span) (s : Session) :
    ((Stmt.expression e span).exec s).result = (e.eval s).result.map (fun value => if e.isAssign then [] else [value]) ∧
      ((Stmt.expression e span).exec s).session = (e.eval s).session := by
  rw [Stmt.exec, Run.andThen_done_map (fun value => if e.isAssign then [] else [value])]
  exact ⟨rfl, rfl⟩

theorem Session.evaluate_of_parse (s : Session) {source : String} {ts : List Token} {e : Expr}
    (hscan : scan source = .ok ts) (hparse : parseExpression ts = .ok e) :
    (s.evaluate source).result = (e.eval s).result ∧ (s.evaluate source).session = (e.eval s).session := by
  obtain ⟨hresult, hsession⟩ := s.withTokens_of_scan _ hscan
  rw [Session.evaluate, hresult, hsession, hparse]
  exact ⟨rfl, rfl⟩

/-- **A single expression is a program.** Tokens are parsed as an expression exactly if there are some, the last is no semicolon, and they are parsed as a program whose one statement is this expression; the statement then covers what the expression covers. So a text that is an expression can be evaluated or run in any session: the session it leaves is the same and so is a fault, and the program answers the value alone, or nothing for an assignment. -/
theorem single_expression_is_program :
    (∀ (ts : List Token) (e : Expr), parseExpression ts = .ok e ↔
      ts ≠ [] ∧ (∀ t ∈ ts.getLast?, t.kind ≠ .semicolon) ∧ ∃ span, parseProgram ts = .ok [.expression e span]) ∧
    (∀ (ts : List Token) (e : Expr) (span : Span), parseExpression ts = .ok e →
      parseProgram ts = .ok [.expression e span] → span = e.span) ∧
    (∀ (s : Session) (source : String) (ts : List Token) (e : Expr), scan source = .ok ts →
      parseExpression ts = .ok e →
      (s.interpret source).session = (s.evaluate source).session ∧
      (∀ fault, (s.interpret source).result = .error fault ↔ (s.evaluate source).result = .error fault) ∧
      (∀ value, (s.evaluate source).result = .ok value →
        (s.interpret source).result = .ok (if e.isAssign then [] else [value]))) := by
  refine ⟨fun ts e => parseExpression_iff_parseProgram, ?_, ?_⟩
  · intro ts e span hparse hprogram
    have hown := parseProgram_of_derives (parseExpression_ok_iff.1 hparse)
    rw [hown] at hprogram
    cases hprogram
    rfl
  · intro s source ts e hscan hparse
    have hprogram := parseProgram_of_derives (parseExpression_ok_iff.1 hparse)
    obtain ⟨hrun, hsession⟩ := s.interpret_of_parse hscan hprogram
    obtain ⟨hvalue, hsession'⟩ := s.evaluate_of_parse hscan hparse
    obtain ⟨hresult, hleft⟩ := Stmt.exec_expression e e.span s
    rw [Stmt.execAll_singleton] at hrun hsession
    rw [hresult, ← hvalue] at hrun
    refine ⟨by rw [hsession, hleft, hsession'], ?_, ?_⟩
    · intro fault
      rw [hrun]
      cases (s.evaluate source).result <;> simp [Except.map]
    · intro value hok
      rw [hrun, hok, Except.map]

/-- An assignment of the negation of a declared name has a value as an expression only. -/
theorem single_expression_is_program_assignment :
    let x (start : Nat) : Token := ⟨.identifier, "x", ⟨1, ⟨start, start + 1⟩⟩, none⟩
    let ts : List Token := [x 0, ⟨.assign, "=", ⟨1, ⟨1, 2⟩⟩, none⟩, ⟨.not, "!", ⟨1, ⟨2, 3⟩⟩, none⟩, x 3]
    let e : Expr := .ofAssign (x 0) (.ofUnary ⟨.not, "!", ⟨1, ⟨2, 3⟩⟩, none⟩ (.reference (x 3)))
    let s := (Session.fresh.interpret "var x;").session
    parseExpression ts = .ok e ∧ parseProgram ts = .ok [.expression e ⟨0, 4⟩] ∧ e.span = ⟨0, 4⟩ ∧
      (s.evaluate "x=!x").result = .ok (.bool true) ∧ (s.interpret "x=!x").result = .ok [] ∧
      (s.interpret "x=!x").session = (s.evaluate "x=!x").session := by
  intro x ts e s
  have hscan : scan "x=!x" = .ok ts := by decide +kernel
  have hprogram : parseProgram ts = .ok [.expression e ⟨0, 4⟩] := by decide +kernel
  have hvalue : (s.evaluate "x=!x").result = .ok (.bool true) := by decide +kernel
  obtain ⟨hparses, hspans, hruns⟩ := single_expression_is_program
  have hparse : parseExpression ts = .ok e :=
    (hparses ts e).2 ⟨List.cons_ne_nil _ _, by simp [ts, x], ⟨0, 4⟩, hprogram⟩
  obtain ⟨hsession, -, hresult⟩ := hruns s "x=!x" ts e hscan hparse
  exact ⟨hparse, hprogram, (hspans ts e _ hparse hprogram).symm, hvalue, hresult _ hvalue, hsession⟩

end Blockscript
