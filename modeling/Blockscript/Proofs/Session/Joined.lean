import Blockscript.Script
import Blockscript.Proofs.Grammar.Programs
import Blockscript.Proofs.Scan.Excerpts

/-!
# Texts in one session

A run looks at places only to put them into faults. So a program that stands further down in a text runs as it does on its own, and where it fails the fault has moved with it.

Two texts with a line break between them are read as the tokens of both. If the first one ends with a semicolon or a brace, no statement goes on behind the break, and the text is parsed as the statements of both. So it is run as one text after the other, and a session cannot tell a file from its parts.
-/

namespace Blockscript

open Grammar

/-! ### Runs of moved programs -/

/-- What moved code does, given what it did before the move: the fault has moved with it, and nothing else differs. -/
structure Run.Moved {α : Type} (m : Move) (run moved : Run α) : Prop where
  result : moved.result = run.result.mapError m.fault
  session : moved.session = run.session

namespace Run.Moved

variable {α β : Type} {m : Move}

theorem done (value : α) (s : Session) : Moved m (.done value s) (.done value s) :=
  ⟨rfl, rfl⟩

theorem ofExcept {result moved : Except Fault α} (h : moved = result.mapError m.fault) (s : Session) :
    Moved m (.ofExcept result s) (.ofExcept moved s) :=
  ⟨h, rfl⟩

theorem andThen {run moved : Run α} {next next' : α → Session → Run β} (h : Moved m run moved)
    (hnext : ∀ value s, Moved m (next value s) (next' value s)) :
    Moved m (run.andThen next) (moved.andThen next') := by
  obtain ⟨hresult, hsession⟩ := h
  cases hrun : run.result with
  | error fault =>
      rw [hrun] at hresult
      rw [andThen_of_error hrun, andThen_of_error hresult]
      exact ⟨rfl, hsession⟩
  | ok value =>
      rw [hrun] at hresult
      have hafter := hnext value run.session
      rw [← hsession] at hafter
      rw [andThen_of_ok hrun, andThen_of_ok hresult, ← hsession]
      exact ⟨hafter.result, hafter.session⟩

end Run.Moved

section

variable (m : Move)

theorem Operator.applyUnary_move (operator : Token) (right : Value) :
    applyUnary (m.token operator) right = (applyUnary operator right).mapError m.fault := by
  unfold applyUnary
  rw [Move.kind_token]
  cases operator.kind <;> cases right <;> rfl

theorem Operator.add_move (operator : Token) (left right : Value) :
    add (m.token operator) left right = (add operator left right).mapError m.fault := by
  unfold add
  cases left <;> cases right <;> rfl

theorem Operator.calculate_move (operator : Token) (left right : Value) :
    calculate (m.token operator) left right = (calculate operator left right).mapError m.fault := by
  cases left <;> cases right <;> try rfl
  rw [calculate, calculate, Move.kind_token]
  cases arithmetic? operator.kind _ _ <;> rfl

theorem Operator.applyBinary_move (operator : Token) (left right : Value) :
    applyBinary (m.token operator) left right = (applyBinary operator left right).mapError m.fault := by
  have hadd := Operator.add_move m operator left right
  have hcalculate := Operator.calculate_move m operator left right
  rw [applyBinary, applyBinary, Move.kind_token]
  cases operator.kind <;> first | exact hadd | exact hcalculate | rfl

theorem Store.assign_move (st : Store) (handle : Handle) (name : Token) (value : Value) :
    st.assign handle (m.token name) value = (st.assign handle name value).mapError m.fault := by
  rw [Store.assign, Store.assign, Move.lexeme_token]
  cases st.live handle with
  | false => rfl
  | true => cases Scope.assign? name.lexeme value handle st.scopes <;> rfl

theorem Session.define_moved (s : Session) (name : String) (value : Value) :
    Run.Moved m (s.define name value) (s.define name value) := by
  rw [Session.define, Store.define]
  cases Scope.define? name value s.current s.store.scopes <;> exact ⟨rfl, rfl⟩

theorem Session.assign_moved (s : Session) (name : Token) (value : Value) :
    Run.Moved m (s.assign name value) (s.assign (m.token name) value) := by
  rw [Session.assign, Session.assign, Store.assign_move]
  cases s.store.assign s.current name value <;> exact ⟨rfl, rfl⟩

theorem Expr.eval_moved (e : Expr) (s : Session) : Run.Moved m (e.eval s) ((m.expr e).eval s) := by
  induction e generalizing s with
  | literal value span => exact .done value s
  | grouping inner span ih => exact ih s
  | unary operator right span ih =>
      apply Run.Moved.andThen (ih s)
      intro value s'
      exact .ofExcept (Operator.applyUnary_move m operator value) s'
  | binary left operator right span ihleft ihright =>
      apply Run.Moved.andThen (ihleft s)
      intro a s'
      apply Run.Moved.andThen (ihright s')
      intro b s''
      exact .ofExcept (Operator.applyBinary_move m operator a b) s''
  | reference name =>
      rw [Move.expr, Expr.eval, Expr.eval, Move.lexeme_token]
      cases s.store.get? s.current name.lexeme <;> exact ⟨rfl, rfl⟩
  | assign name inner span ih =>
      apply Run.Moved.andThen (ih s)
      intro value s'
      exact s'.assign_moved m name value

theorem Expr.evalOptional_moved (e : Option Expr) (s : Session) :
    Run.Moved m (Expr.evalOptional e s) (Expr.evalOptional (e.map m.expr) s) := by
  cases e with
  | none => exact .done Value.null s
  | some e => exact e.eval_moved m s

theorem Move.isAssign_expr (e : Expr) : (m.expr e).isAssign = e.isAssign := by
  cases e <;> rfl

mutual

theorem Stmt.exec_moved (stmt : Stmt) (s : Session) : Run.Moved m (stmt.exec s) ((m.stmt stmt).exec s) := by
  cases stmt with
  | expression e span =>
      rw [Move.stmt, Stmt.exec, Stmt.exec, Move.isAssign_expr]
      apply Run.Moved.andThen (e.eval_moved m s)
      intro value s'
      exact .done _ s'
  | var name initializer span =>
      rw [Move.stmt, Stmt.exec, Stmt.exec, Move.lexeme_token]
      apply Run.Moved.andThen (Expr.evalOptional_moved m initializer s)
      intro value s'
      apply Run.Moved.andThen (s'.define_moved m name.lexeme value)
      intro _ s''
      exact .done [] s''
  | block body span =>
      have hbody := Stmt.execAll_moved body s.enter
      rw [Move.stmt, Stmt.exec, Stmt.exec]
      exact ⟨hbody.result, by rw [hbody.session]⟩

theorem Stmt.execAll_moved (stmts : List Stmt) (s : Session) :
    Run.Moved m (Stmt.execAll stmts s) (Stmt.execAll (m.stmts stmts) s) := by
  cases stmts with
  | nil => exact .done [] s
  | cons stmt rest =>
      rw [Move.stmts, Stmt.execAll, Stmt.execAll]
      apply Run.Moved.andThen (Stmt.exec_moved stmt s)
      intro values s'
      apply Run.Moved.andThen (Stmt.execAll_moved rest s')
      intro more s''
      exact .done (values ++ more) s''

end

end

/-! ### Programs one behind the other -/

theorem Stmt.execAll_append (front back : List Stmt) (s : Session) :
    Stmt.execAll (front ++ back) s = (Stmt.execAll front s).andThen fun values s' =>
      (Stmt.execAll back s').andThen fun more s'' => .done (values ++ more) s'' := by
  induction front generalizing s with
  | nil =>
      rw [List.nil_append, Stmt.execAll, Run.andThen_done, Run.andThen_done_map]
      cases hresult : (Stmt.execAll back s).result with
      | error fault => rw [Except.map, ← hresult]
      | ok values => rw [Except.map, List.nil_append, ← hresult]
  | cons stmt front ih =>
      rw [List.cons_append, Stmt.execAll, Stmt.execAll, Run.andThen_assoc]
      congr 1
      funext values s'
      rw [ih, Run.andThen_assoc, Run.andThen_assoc]
      congr 1
      funext more s''
      rw [Run.andThen_assoc, Run.andThen_done]
      simp only [Run.andThen_done, List.append_assoc]

/-- No statement goes on behind a semicolon or a brace. -/
theorem Grammar.Segments.append {segments segments' : List (List Token)} {p q : List Stmt} (h : Segments segments p)
    (h' : Segments segments' q)
    (hend : ∀ t ∈ segments.flatten.getLast?, t.kind = .semicolon ∨ t.kind = .rightBrace) :
    Segments (segments ++ segments') (p ++ q) := by
  induction h with
  | nil => exact h'
  | declaration opens target value closes _ ih =>
      exact .declaration opens target value closes (ih fun t ht => hend t (List.mem_getLast?_append_of_mem_getLast? ht))
  | block opens inner closes _ _ ih =>
      exact .block opens inner closes (ih fun t ht => hend t (List.mem_getLast?_append_of_mem_getLast? ht))
  | closed tree closes _ ih =>
      exact .closed tree closes (ih fun t ht => hend t (List.mem_getLast?_append_of_mem_getLast? ht))
  | @bare ts e segments more tree greedy _ ih =>
      rw [List.cons_append, List.cons_append]
      refine .bare tree ?_ (ih fun t ht => hend t (List.mem_getLast?_append_of_mem_getLast? ht))
      have hne : segments.flatten ≠ [] := by
        intro hnil
        rw [List.flatten_cons, hnil, List.append_nil] at hend
        obtain ⟨last, hlast, hkind⟩ := tree.endsExpression
        rcases hend last hlast with hclosed | hclosed <;> rw [hclosed] at hkind <;> cases hkind
      rw [List.flatten_append, List.head?_append_of_ne_nil _ hne]
      exact greedy

theorem parseProgram_append {as bs : List Token} {p q : List Stmt} (hp : parseProgram as = .ok p)
    (hq : parseProgram bs = .ok q) (hend : ∀ t ∈ as.getLast?, t.kind = .semicolon ∨ t.kind = .rightBrace)
    (m : Move) : parseProgram (as ++ bs.map m.token) = .ok (p ++ m.stmts q) := by
  obtain ⟨front, rfl, hfront⟩ := parseProgram_eq_ok_iff.1 hp
  obtain ⟨back, rfl, hback⟩ := parseProgram_eq_ok_iff.1 hq
  refine parseProgram_eq_ok_iff.2 ⟨_, ?_, hfront.append (hback.move m) hend⟩
  rw [List.flatten_append, List.map_flatten]

theorem Session.withTokens_of_scan {α : Type} (s : Session) {source : String} {ts : List Token}
    (next : List Token → Run α) (hscan : scan source = .ok ts) :
    (s.withTokens source next).result = (next ts).result ∧ (s.withTokens source next).session = (next ts).session := by
  obtain ⟨lines, hread⟩ := scan_ok_iff_read.1 hscan
  rw [Session.withTokens, hread]
  exact ⟨rfl, rfl⟩

theorem Session.interpret_of_parse (s : Session) {source : String} {ts : List Token} {p : List Stmt}
    (hscan : scan source = .ok ts) (hparse : parseProgram ts = .ok p) :
    (s.interpret source).result = (Stmt.execAll p s).result ∧
      (s.interpret source).session = (Stmt.execAll p s).session := by
  obtain ⟨hresult, hsession⟩ := s.withTokens_of_scan _ hscan
  rw [Session.interpret, hresult, hsession, hparse]
  exact ⟨rfl, rfl⟩

/-- **A session cannot tell a text from its parts.** A text is put on the line behind another one that ends with a semicolon or a brace, or that has no tokens. Running both at once is running the first one and, if it succeeds, the second: a fault of the first ends the run and leaves what it leaves, values follow values, and a fault of the second comes from further down. -/
theorem interpret_joined (s : Session) {a b : String} {as bs : List Token} {p q : List Stmt}
    (ha : scan a = .ok as) (hp : parseProgram as = .ok p) (hb : scan b = .ok bs) (hq : parseProgram bs = .ok q)
    (hend : ∀ t ∈ as.getLast?, t.kind = .semicolon ∨ t.kind = .rightBrace) :
    let first := s.interpret a
    let second := first.session.interpret b
    let joined := s.interpret (a ++ "\n" ++ b)
    (∀ fault, first.result = .error fault → joined.result = .error fault ∧ joined.session = first.session) ∧
    (∀ values, first.result = .ok values → joined.session = second.session ∧
      (∀ more, second.result = .ok more → joined.result = .ok (values ++ more)) ∧
      (∀ fault, second.result = .error fault → joined.result = .error ((Move.below a).fault fault))) := by
  intro first second joined
  obtain ⟨hresult, hsession⟩ := s.interpret_of_parse (scan_break ha hb) (parseProgram_append hp hq hend (.below a))
  obtain ⟨hfirst, hleft⟩ := s.interpret_of_parse ha hp
  obtain ⟨hsecond, hleft'⟩ := first.session.interpret_of_parse hb hq
  have hmoved := Stmt.execAll_moved (.below a) q first.session
  rw [Stmt.execAll_append] at hresult hsession
  constructor
  · intro fault hfault
    rw [hfirst] at hfault
    rw [Run.andThen_of_error hfault] at hresult hsession
    exact ⟨hresult, hsession.trans hleft.symm⟩
  · intro values hvalues
    rw [hfirst] at hvalues
    rw [Run.andThen_of_ok hvalues, ← hleft, Run.andThen_done_map] at hresult hsession
    rw [hmoved.result, ← hsecond] at hresult
    refine ⟨hsession.trans (hmoved.session.trans hleft'.symm), ?_, ?_⟩
    · intro more hmore
      rw [hmore] at hresult
      exact hresult
    · intro fault hfault
      rw [hfault] at hresult
      exact hresult

/-- The break ends the comment in front of it, and the fault is found on the second line. -/
theorem interpret_joined_after_comment :
    (Session.fresh.interpret ("var a;//" ++ "\n" ++ "-a")).result =
      .error (.invalidType ⟨2, ⟨9, 10⟩⟩ "-" [.null]) := by
  have ha : scan "var a;//" = .ok [⟨.varWord, "var", ⟨1, ⟨0, 3⟩⟩, none⟩, ⟨.identifier, "a", ⟨1, ⟨4, 5⟩⟩, none⟩,
      ⟨.semicolon, ";", ⟨1, ⟨5, 6⟩⟩, none⟩] := by decide +kernel
  have hp : parseProgram [⟨.varWord, "var", ⟨1, ⟨0, 3⟩⟩, none⟩, ⟨.identifier, "a", ⟨1, ⟨4, 5⟩⟩, none⟩,
      ⟨.semicolon, ";", ⟨1, ⟨5, 6⟩⟩, none⟩] = .ok [.var ⟨.identifier, "a", ⟨1, ⟨4, 5⟩⟩, none⟩ none ⟨0, 6⟩] := by
    decide +kernel
  have hb : scan "-a" = .ok [⟨.subtract, "-", ⟨1, ⟨0, 1⟩⟩, none⟩, ⟨.identifier, "a", ⟨1, ⟨1, 2⟩⟩, none⟩] := by
    decide +kernel
  have hq : parseProgram [⟨.subtract, "-", ⟨1, ⟨0, 1⟩⟩, none⟩, ⟨.identifier, "a", ⟨1, ⟨1, 2⟩⟩, none⟩] =
      .ok [.expression (.ofUnary ⟨.subtract, "-", ⟨1, ⟨0, 1⟩⟩, none⟩
        (.reference ⟨.identifier, "a", ⟨1, ⟨1, 2⟩⟩, none⟩)) ⟨0, 2⟩] := by decide +kernel
  have hjoined := interpret_joined .fresh ha hp hb hq (by simp)
  have hfirst : (Session.fresh.interpret "var a;//").result = .ok [] := by decide +kernel
  have hsecond : ((Session.fresh.interpret "var a;//").session.interpret "-a").result =
      .error (.invalidType ⟨1, ⟨0, 1⟩⟩ "-" [.null]) := by decide +kernel
  exact (hjoined.2 [] hfirst).2.2 _ hsecond

end Blockscript
