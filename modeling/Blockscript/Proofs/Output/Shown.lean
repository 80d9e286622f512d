import Blockscript.Proofs.Session.Transparency
import Blockscript.Proofs.Session.Visits

/-!
# Which statements show a value

Which statements of a program show a value can be read off the text: the expressions that stand as statements, however deep in blocks, other than assignments. A program that succeeds answers one value for each of them in the order of the text, the value that the statement has when its turn comes.
-/

namespace Blockscript

mutual

/-- The statements that show a value, in the order of the text. -/
def Stmt.showing : Stmt → List Stmt
  | .expression e span => if e.isAssign then [] else [.expression e span]
  | .var _ _ _ => []
  | .block body _ => Stmt.showingAll body

def Stmt.showingAll : List Stmt → List Stmt
  | [] => []
  | stmt :: rest => stmt.showing ++ Stmt.showingAll rest

end

/-- In a run of a program a statement has its turn and answers the one value. -/
def Stmt.Answers (program : List Stmt) (start : Session) (stmt : Stmt) (value : Value) : Prop :=
  ∃ s, Node.Visited program start (.stmt stmt) s ∧ (stmt.exec s).result = .ok [value]

variable {program : List Stmt} {start : Session}

mutual

theorem Stmt.showing_answers (stmt : Stmt) {s : Session} {values : List Value}
    (hvisited : Node.Visited program start (.stmt stmt) s) (h : (stmt.exec s).result = .ok values) :
    stmt.showing.Forall₂ (Stmt.Answers program start) values := by
  cases stmt with
  | expression e span =>
      rw [Stmt.showing]
      obtain ⟨value, -, hlast⟩ := Run.exists_of_andThen_ok h
      obtain rfl : (if e.isAssign then [] else [value]) = values := Except.ok.inj hlast
      by_cases hassign : e.isAssign = true
      · rw [if_pos hassign, if_pos hassign]
        exact .nil
      · rw [if_neg hassign] at h
        rw [if_neg hassign, if_neg hassign]
        exact .cons ⟨s, hvisited, h⟩ .nil
  | var name initializer span =>
      rw [Stmt.exec] at h
      obtain ⟨value, -, hlast⟩ := Run.exists_of_andThen_ok h
      obtain ⟨_, -, hnone⟩ := Run.exists_of_andThen_ok hlast
      obtain rfl : [] = values := Except.ok.inj hnone
      exact .nil
  | block body span =>
      exact Stmt.showingAll_answers body (fun stmt s' hturn => hvisited.child (.block hturn)) h

theorem Stmt.showingAll_answers (stmts : List Stmt) {s : Session} {values : List Value}
    (hvisited : ∀ stmt s', Stmt.Turn stmts s stmt s' → Node.Visited program start (.stmt stmt) s')
    (h : (Stmt.execAll stmts s).result = .ok values) :
    (Stmt.showingAll stmts).Forall₂ (Stmt.Answers program start) values := by
  cases stmts with
  | nil =>
      obtain rfl : [] = values := Except.ok.inj h
      exact .nil
  | cons stmt rest =>
      obtain ⟨first, hfirst, hlast⟩ := Run.exists_of_andThen_ok h
      obtain ⟨more, hmore, hvalues⟩ := Run.exists_of_andThen_ok hlast
      obtain rfl : first ++ more = values := Except.ok.inj hvalues
      have hhead := Stmt.showing_answers stmt (hvisited stmt s .first) hfirst
      have htail := Stmt.showingAll_answers rest (fun later s' hturn => hvisited later s' (.later hfirst hturn)) hmore
      exact List.rel_append hhead htail

end

end Blockscript
