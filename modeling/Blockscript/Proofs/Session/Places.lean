import Blockscript.Proofs.Grammar.Moved
import Blockscript.Proofs.Session.Joined

/-!
# Places do not matter

Two texts may differ in their blanks, comments and lines, and still consist of the same words. They then have the same trees, run in the same way, and fail for the same reasons. Only the places in the trees and in the faults differ.

Things are alike if they are the same once their places are forgotten. To forget places is to move everything to one place, and alike things are moved to the same thing. So what is known of moved tokens and of runs of moved programs carries over to any two that are alike.
-/

namespace Blockscript

open Grammar

namespace Move

/-- Moves everything to one place. -/
def forget : Move := ⟨fun _ => 0, fun _ => 0⟩

theorem forget_place (p q : Place) : forget.place p = forget.place q := rfl

end Move

open Move (forget)

/-- The same word, at any place. -/
def Token.Alike (t u : Token) : Prop :=
  t.kind = u.kind ∧ t.lexeme = u.lexeme ∧ t.literal = u.literal

/-- The same expression, whatever the lines and spans in it. -/
def Expr.Alike (e e' : Expr) : Prop := forget.expr e = forget.expr e'

/-- The same program, whatever the lines and spans in it. -/
def Stmt.AllAlike (p q : List Stmt) : Prop := forget.stmts p = forget.stmts q

/-- The same fault, at any place. -/
def Fault.Alike (f g : Fault) : Prop := forget.fault f = forget.fault g

/-- Both succeed with the same, or both fail with the same fault up to its place. -/
inductive ResultsAlike {α : Type} (Same : α → α → Prop) : Except Fault α → Except Fault α → Prop
  | ok {a b : α} (same : Same a b) : ResultsAlike Same (.ok a) (.ok b)
  | error {f g : Fault} (same : f.Alike g) : ResultsAlike Same (.error f) (.error g)

theorem Token.Alike.forget_eq {t u : Token} (h : t.Alike u) : forget.token t = forget.token u := by
  obtain ⟨hkind, hlexeme, hliteral⟩ := h
  rw [Move.token, Move.token, hkind, hlexeme, hliteral, Move.forget_place]

theorem forget_tokens_eq {ts us : List Token} (h : ts.Forall₂ Token.Alike us) :
    ts.map forget.token = us.map forget.token := by
  induction h with
  | nil => rfl
  | cons hhead _ ih => rw [List.map_cons, List.map_cons, hhead.forget_eq, ih]

/-- Results are alike if they are the same without their places, seen through whatever forgets the places in a value. -/
theorem ResultsAlike.of_forgotten {α β : Type} (view : α → β) {x y : Except Fault α}
    (h : (x.map view).mapError forget.fault = (y.map view).mapError forget.fault) :
    ResultsAlike (fun a b => view a = view b) x y := by
  cases x with
  | error f =>
      cases y with
      | error g => exact .error (Except.error.inj h)
      | ok b => cases h
  | ok a =>
      cases y with
      | error g => cases h
      | ok b => exact .ok (Except.ok.inj h)

/-! ### Parsing -/

namespace Grammar

/-- Two answers that a move takes to the same one. -/
theorem Answer.Moved.alike {m : Move} {α : Type} {move : α → α} {n n' k : Nat} {answer : Answer α n}
    {answer' : Answer α n'} {moved : Answer α k} (h : Moved m move answer moved) (h' : Moved m move answer' moved) :
    (∃ p q, answer = .error p ∧ answer' = .error q ∧ m.misparse p = m.misparse q) ∨
    ∃ value value' rest rest' shorter shorter', answer = .ok ⟨value, rest, shorter⟩ ∧
      answer' = .ok ⟨value', rest', shorter'⟩ ∧ move value = move value' ∧ rest.map m.token = rest'.map m.token := by
  obtain ⟨p, hp, hmoved⟩ | ⟨value, rest, shorter, _, hvalue, hmoved⟩ := h
  · obtain ⟨q, hq, hmoved'⟩ | ⟨_, _, _, _, _, hmoved'⟩ := h'
    · rw [hmoved] at hmoved'
      exact .inl ⟨p, q, hp, hq, Except.error.inj hmoved'⟩
    · rw [hmoved] at hmoved'
      cases hmoved'
  · obtain ⟨_, _, hmoved'⟩ | ⟨value', rest', shorter', _, hvalue', hmoved'⟩ := h'
    · rw [hmoved] at hmoved'
      cases hmoved'
    · rw [hmoved] at hmoved'
      injection hmoved' with hmoved'
      injection hmoved' with hsame hrest
      exact .inr ⟨value, value', rest, rest', shorter, shorter', hvalue, hvalue', hsame, hrest⟩

theorem Misparse.alike {p q : Misparse} (h : forget.misparse p = forget.misparse q) : p.fault.Alike q.fault := by
  rw [Fault.Alike, Move.fault_misparse, Move.fault_misparse, h]

end Grammar

theorem parseProgram_moved (m : Move) (ts : List Token) :
    ((parseProgram ts).map m.stmts).mapError m.fault =
      (statements (m.place (endPlace ts)) (ts.map m.token)).mapError Misparse.fault := by
  rw [statements_moved, parseProgram]
  cases statements (endPlace ts) ts <;> rfl

theorem parseProgram_alike {ts us : List Token} (h : ts.Forall₂ Token.Alike us) :
    ResultsAlike Stmt.AllAlike (parseProgram ts) (parseProgram us) := by
  apply ResultsAlike.of_forgotten forget.stmts
  rw [parseProgram_moved, parseProgram_moved, forget_tokens_eq h, Move.forget_place]

theorem parseExpression_alike {ts us : List Token} (h : ts.Forall₂ Token.Alike us) :
    ResultsAlike Expr.Alike (parseExpression ts) (parseExpression us) := by
  have hts := assignment_moved forget (endPlace ts) ts
  have hus := assignment_moved forget (endPlace us) us
  rw [forget_tokens_eq h, Move.forget_place] at hts
  rw [parseExpression, parseExpression]
  obtain ⟨p, q, hp, hq, hsame⟩ | ⟨e, e', rest, rest', shorter, shorter', he, he', hsame, hrest⟩ := hts.alike hus
  · rw [hp, hq]
    exact .error (Misparse.alike hsame)
  · rw [he, he']
    cases rest with
    | nil =>
        obtain rfl := List.map_eq_nil_iff.1 hrest.symm
        exact .ok hsame
    | cons t rest =>
        obtain ⟨u, rest', rfl, htoken, -⟩ := List.map_eq_cons_iff.1 hrest.symm
        have hlexeme : (forget.token u).lexeme = (forget.token t).lexeme := congrArg Token.lexeme htoken
        rw [Move.lexeme_token, Move.lexeme_token] at hlexeme
        apply ResultsAlike.error
        rw [hlexeme]
        rfl

/-! ### Running -/

/-- Runs that are the same once their places are forgotten. -/
theorem Run.Moved.alike {α : Type} {run run' forgotten : Run α} (h : Run.Moved forget run forgotten)
    (h' : Run.Moved forget run' forgotten) :
    ResultsAlike Eq run.result run'.result ∧ run.session = run'.session := by
  constructor
  · apply ResultsAlike.of_forgotten id
    rw [Except.map_id, id, id, ← h.result, ← h'.result]
  · rw [← h.session, ← h'.session]

theorem Stmt.execAll_alike {p q : List Stmt} (h : Stmt.AllAlike p q) (s : Session) :
    ResultsAlike Eq (Stmt.execAll p s).result (Stmt.execAll q s).result ∧
      (Stmt.execAll p s).session = (Stmt.execAll q s).session := by
  have hp := Stmt.execAll_moved forget p s
  rw [h] at hp
  exact hp.alike (Stmt.execAll_moved forget q s)

theorem Expr.eval_alike {e e' : Expr} (h : e.Alike e') (s : Session) :
    ResultsAlike Eq (e.eval s).result (e'.eval s).result ∧ (e.eval s).session = (e'.eval s).session := by
  have he := e.eval_moved forget s
  rw [h] at he
  exact he.alike (e'.eval_moved forget s)

theorem Session.interpret_of_parse_error (s : Session) {source : String} {ts : List Token} {fault : Fault}
    (hscan : scan source = .ok ts) (hparse : parseProgram ts = .error fault) :
    (s.interpret source).result = .error fault ∧ (s.interpret source).session = s := by
  obtain ⟨hresult, hsession⟩ := s.withTokens_of_scan _ hscan
  rw [Session.interpret, hresult, hsession, hparse]
  exact ⟨rfl, rfl⟩

theorem Session.interpret_alike (s : Session) {a b : String} {as bs : List Token} (ha : scan a = .ok as)
    (hb : scan b = .ok bs) (h : as.Forall₂ Token.Alike bs) :
    ResultsAlike Eq (s.interpret a).result (s.interpret b).result ∧
      (s.interpret a).session = (s.interpret b).session := by
  have hparse := parseProgram_alike h
  generalize hp : parseProgram as = parsed at hparse
  generalize hq : parseProgram bs = parsed' at hparse
  cases hparse with
  | error same =>
      obtain ⟨hresult, hsession⟩ := s.interpret_of_parse_error ha hp
      obtain ⟨hresult', hsession'⟩ := s.interpret_of_parse_error hb hq
      rw [hresult, hresult', hsession, hsession']
      exact ⟨.error same, rfl⟩
  | ok same =>
      obtain ⟨hresult, hsession⟩ := s.interpret_of_parse ha hp
      obtain ⟨hresult', hsession'⟩ := s.interpret_of_parse hb hq
      rw [hresult, hresult', hsession, hsession']
      exact Stmt.execAll_alike same s

/-- **Places do not matter.** Lists of the same words are parsed alike, as programs and as expressions. Programs that differ in their places only, run in one session, give the same values, or the same fault at another place, and leave the same session. So do two texts that consist of the same words. -/
theorem places_do_not_matter :
    (∀ ts us : List Token, ts.Forall₂ Token.Alike us →
      ResultsAlike Stmt.AllAlike (parseProgram ts) (parseProgram us) ∧
      ResultsAlike Expr.Alike (parseExpression ts) (parseExpression us)) ∧
    (∀ (p q : List Stmt) (s : Session), Stmt.AllAlike p q →
      ResultsAlike Eq (Stmt.execAll p s).result (Stmt.execAll q s).result ∧
      (Stmt.execAll p s).session = (Stmt.execAll q s).session) ∧
    (∀ (a b : String) (as bs : List Token), scan a = .ok as → scan b = .ok bs → as.Forall₂ Token.Alike bs →
      ResultsAlike Eq (interpret a) (interpret b) ∧
      ∀ s : Session, ResultsAlike Eq (s.interpret a).result (s.interpret b).result ∧
        (s.interpret a).session = (s.interpret b).session) := by
  refine ⟨?_, ?_, ?_⟩
  · intro ts us h
    exact ⟨parseProgram_alike h, parseExpression_alike h⟩
  · intro p q s h
    exact Stmt.execAll_alike h s
  · intro a b as bs ha hb h
    exact ⟨(Session.fresh.interpret_alike ha hb h).1, fun s => s.interpret_alike ha hb h⟩

/-- An open parenthesis, an undeclared name and a negated null: the same three faults at other places, one of them behind a comment and two where no text puts them. -/
theorem places_do_not_matter_after_comment :
    ResultsAlike Expr.Alike (parseExpression [⟨.leftParen, "(", ⟨1, ⟨0, 1⟩⟩, none⟩])
      (parseExpression [⟨.leftParen, "(", ⟨5, ⟨9, 2⟩⟩, none⟩]) ∧
    ResultsAlike Eq
      (Stmt.execAll [.expression (.assign ⟨.identifier, "a", ⟨1, ⟨0, 1⟩⟩, none⟩ (.literal .null ⟨2, 6⟩) ⟨0, 6⟩) ⟨0, 6⟩]
        .fresh).result
      (Stmt.execAll [.expression (.assign ⟨.identifier, "a", ⟨7, ⟨3, 1⟩⟩, none⟩ (.literal .null ⟨0, 0⟩) ⟨4, 2⟩) ⟨8, 8⟩]
        .fresh).result ∧
    ResultsAlike Eq (interpret "var a;-a") (interpret "var a;//\n-a") ∧
      interpret "var a;-a" ≠ interpret "var a;//\n-a" := by
  have ha : scan "var a;-a" = .ok [⟨.varWord, "var", ⟨1, ⟨0, 3⟩⟩, none⟩, ⟨.identifier, "a", ⟨1, ⟨4, 5⟩⟩, none⟩,
      ⟨.semicolon, ";", ⟨1, ⟨5, 6⟩⟩, none⟩, ⟨.subtract, "-", ⟨1, ⟨6, 7⟩⟩, none⟩,
      ⟨.identifier, "a", ⟨1, ⟨7, 8⟩⟩, none⟩] := by decide +kernel
  have hb : scan "var a;//\n-a" = .ok [⟨.varWord, "var", ⟨1, ⟨0, 3⟩⟩, none⟩, ⟨.identifier, "a", ⟨1, ⟨4, 5⟩⟩, none⟩,
      ⟨.semicolon, ";", ⟨1, ⟨5, 6⟩⟩, none⟩, ⟨.subtract, "-", ⟨2, ⟨9, 10⟩⟩, none⟩,
      ⟨.identifier, "a", ⟨2, ⟨10, 11⟩⟩, none⟩] := by decide +kernel
  have hresult : interpret "var a;-a" = .error (.invalidType ⟨1, ⟨6, 7⟩⟩ "-" [.null]) := by decide +kernel
  have hresult' : interpret "var a;//\n-a" = .error (.invalidType ⟨2, ⟨9, 10⟩⟩ "-" [.null]) := by decide +kernel
  refine ⟨?_, ?_, ?_, ?_⟩
  · exact (places_do_not_matter.1 _ _ (by simp [Token.Alike])).2
  · exact (places_do_not_matter.2.1 _ _ _ (by rfl)).1
  · exact (places_do_not_matter.2.2 _ _ _ _ ha hb (by simp [Token.Alike])).1
  · rw [hresult, hresult']
    decide

end Blockscript
