import Blockscript.Grammar.Statement
import Blockscript.Proofs.Move

/-!
# Parsers on moved tokens

A parser looks at the kinds and values of tokens, and copies their places into trees and faults. So on moved tokens it goes the same way: it answers the moved tree and leaves the same tokens, moved as well, or it meets the same problem at the moved place. This holds of any move, also of one that forgets places.

Parsers are told where a fault at the end of the tokens is placed, and that place moves along. Each is followed branch by branch, and the calls it makes end for the reason that its own calls end.
-/

namespace Blockscript

/-- The same problem at the moved place. -/
def Move.misparse (m : Move) (p : Grammar.Misparse) : Grammar.Misparse :=
  ⟨m.place p.place, p.problem⟩

theorem Move.fault_misparse (m : Move) (p : Grammar.Misparse) : m.fault p.fault = (m.misparse p).fault := rfl

namespace Grammar

/-- What a parser answers on moved tokens, given its answer before the move. -/
def Answer.Moved (m : Move) {α : Type} (move : α → α) {n k : Nat} (answer : Answer α n) (moved : Answer α k) : Prop :=
  (∃ p, answer = .error p ∧ moved = .error (m.misparse p)) ∨
  ∃ value rest shorter shorter', answer = .ok ⟨value, rest, shorter⟩ ∧ moved = .ok ⟨move value, rest.map m.token, shorter'⟩

namespace Answer.Moved

variable {m : Move} {α : Type} {move : α → α} {n k : Nat}

theorem error (p : Misparse) : Moved m move (.error p : Answer α n) (.error (m.misparse p) : Answer α k) :=
  .inl ⟨p, rfl, rfl⟩

theorem ok {value : α} {rest : List Token} (shorter : rest.length < n) (shorter' : (rest.map m.token).length < k) :
    Moved m move (.ok ⟨value, rest, shorter⟩) (.ok ⟨move value, rest.map m.token, shorter'⟩) :=
  .inr ⟨value, rest, shorter, shorter', rfl, rfl⟩

/-- A test that comes out the same on moved tokens. -/
theorem ite {c c' : Prop} [Decidable c] [Decidable c'] (same : c' ↔ c) {yes no : Answer α n} {yes' no' : Answer α k}
    (hyes : Moved m move yes yes') (hno : Moved m move no no') :
    Moved m move (if c then yes else no) (if c' then yes' else no') := by
  by_cases h : c
  · rw [if_pos h, if_pos (same.2 h)]
    exact hyes
  · rw [if_neg h, if_neg fun h' => h (same.1 h')]
    exact hno

end Answer.Moved

variable (m : Move)

theorem beginsExpression_map (ts : List Token) : beginsExpression (ts.map m.token) = beginsExpression ts := by
  cases ts with
  | nil => rfl
  | cons t rest => rfl

mutual

theorem assignment_moved (ending : Place) (ts : List Token) :
    Answer.Moved m m.expr (assignment ending ts) (assignment (m.place ending) (ts.map m.token)) := by
  rw [assignment, assignment]
  obtain ⟨p, h, h'⟩ | ⟨left, rest, shorter, shorter', h, h'⟩ := chain_moved ending .or ts
  · rw [h, h']
    exact .error p
  · rw [h, h']
    cases rest with
    | nil => exact .ok shorter shorter'
    | cons t rest =>
        have hrest : rest.length < ts.length := Nat.lt_of_succ_lt shorter
        apply Answer.Moved.ite Iff.rfl
        · obtain ⟨p, h, h'⟩ | ⟨value, after, _, _, h, h'⟩ := assignment_moved ending rest
          · rw [h, h']
            exact .error p
          · rw [h, h']
            cases left with
            | reference name =>
                simp only [Move.expr, ← Move.expr_ofAssign]
                exact .ok _ _
            | _ => exact .error ⟨t.place, .invalidTarget⟩
        · exact .ok shorter shorter'
termination_by (ts.length, 2 * Level.or.height + 4)

theorem chain_moved (ending : Place) (level : Level) (ts : List Token) :
    Answer.Moved m m.expr (chain ending level ts) (chain (m.place ending) level (ts.map m.token)) := by
  rw [chain, chain]
  obtain ⟨p, h, h'⟩ | ⟨first, after, shorter, _, h, h'⟩ := operand_moved ending level ts
  · rw [h, h']
    exact .error p
  · rw [h, h']
    obtain ⟨p, h, h'⟩ | ⟨e, rest, _, _, h, h'⟩ := chainFrom_moved ending level first after
    · simp only [h, h']
      exact .error p
    · simp only [h, h']
      exact .ok _ _
termination_by (ts.length, 2 * level.height + 3)

theorem chainFrom_moved (ending : Place) (level : Level) (left : Expr) (ts : List Token) :
    Answer.Moved m m.expr (chainFrom ending level left ts)
      (chainFrom (m.place ending) level (m.expr left) (ts.map m.token)) := by
  cases ts with
  | nil =>
      rw [List.map_nil, chainFrom, chainFrom]
      exact .ok _ _
  | cons op rest =>
      rw [List.map_cons, chainFrom, chainFrom, beginsExpression_map]
      apply Answer.Moved.ite Iff.rfl
      · apply Answer.Moved.ite Iff.rfl
        · obtain ⟨p, h, h'⟩ | ⟨right, after, shorter, _, h, h'⟩ := operand_moved ending level rest
          · rw [h, h']
            exact .error p
          · rw [h, h']
            have hfrom := chainFrom_moved ending level (.ofBinary left op right) after
            rw [Move.expr_ofBinary] at hfrom
            obtain ⟨p, h, h'⟩ | ⟨e, rest, _, _, h, h'⟩ := hfrom
            · simp only [h, h']
              exact .error p
            · simp only [h, h']
              exact .ok _ _
        · exact .error ⟨op.place, .missingOperand op.lexeme⟩
      · exact .ok _ _
termination_by (ts.length, 0)

theorem operand_moved (ending : Place) (level : Level) (ts : List Token) :
    Answer.Moved m m.expr (operand ending level ts) (operand (m.place ending) level (ts.map m.token)) := by
  have hchain (next : Level) (hnext : level.tighter = some next) :
      Answer.Moved m m.expr (chain ending next ts) (chain (m.place ending) next (ts.map m.token)) :=
    have := Level.height_tighter hnext
    chain_moved ending next ts
  have hunary := unary_moved ending ts
  cases level <;> rw [operand, operand]
  case factor => exact hunary
  all_goals exact hchain _ rfl
termination_by (ts.length, 2 * level.height + 2)

theorem unary_moved (ending : Place) (ts : List Token) :
    Answer.Moved m m.expr (unary ending ts) (unary (m.place ending) (ts.map m.token)) := by
  cases ts with
  | nil =>
      rw [List.map_nil, unary, unary]
      exact .error ⟨ending, .missingExpression⟩
  | cons t rest =>
      rw [List.map_cons, unary, unary]
      apply Answer.Moved.ite Iff.rfl
      · obtain ⟨p, h, h'⟩ | ⟨right, after, _, _, h, h'⟩ := unary_moved ending rest
        · rw [h, h']
          exact .error p
        · rw [h, h']
          simp only [← Move.expr_ofUnary]
          exact .ok _ _
      · exact primary_moved ending t rest
termination_by (ts.length, 1)

theorem primary_moved (ending : Place) (t : Token) (rest : List Token) :
    Answer.Moved m m.expr (primary ending t rest) (primary (m.place ending) (m.token t) (rest.map m.token)) := by
  have hparenthesised := parenthesised_moved ending t rest
  have hliteral : (m.token t).literal = t.literal := rfl
  rw [primary, primary, m.kind_token, hliteral]
  cases t.kind with
  | leftParen => exact hparenthesised
  | number | string =>
      cases t.literal with
      | none => exact .error _
      | some value => exact .ok _ _
  | falseWord | trueWord | nullWord | identifier => exact .ok _ _
  | _ => exact .error _
termination_by (rest.length + 1, 0)

theorem parenthesised_moved (ending : Place) (opening : Token) (ts : List Token) :
    Answer.Moved m m.expr (parenthesised ending opening ts)
      (parenthesised (m.place ending) (m.token opening) (ts.map m.token)) := by
  cases ts with
  | nil =>
      rw [List.map_nil, parenthesised, parenthesised]
      exact .error ⟨ending, .missingExpression⟩
  | cons t rest =>
      rw [List.map_cons, parenthesised, parenthesised]
      apply Answer.Moved.ite Iff.rfl
      · exact .error ⟨⟨opening.line, opening.span.through t.span⟩, .emptyParentheses⟩
      · have hinner : Answer.Moved m m.expr (assignment ending (t :: rest))
            (assignment (m.place ending) (m.token t :: rest.map m.token)) := assignment_moved ending (t :: rest)
        obtain ⟨p, h, h'⟩ | ⟨inner, after, shorter, shorter', h, h'⟩ := hinner
        · rw [h, h']
          exact .error p
        · rw [h, h']
          cases after with
          | nil => exact .error ⟨ending, .unclosedParenthesis⟩
          | cons closing after =>
              apply Answer.Moved.ite Iff.rfl
              · exact .ok _ _
              · exact .error ⟨closing.place, .unclosedParenthesis⟩
termination_by (ts.length, 2 * Level.or.height + 5)

end

theorem declarationEnd_moved (ending : Place) (opening name : Token) (initializer : Option Expr) (ts : List Token) :
    Answer.Moved m m.stmt (declarationEnd ending opening name initializer ts)
      (declarationEnd (m.place ending) (m.token opening) (m.token name) (initializer.map m.expr) (ts.map m.token)) := by
  cases ts with
  | nil => exact .error ⟨ending, .missingSemicolon⟩
  | cons t rest =>
      apply Answer.Moved.ite Iff.rfl
      · exact .ok _ _
      · exact .error ⟨t.place, .missingSemicolon⟩

theorem declarationValue_moved (ending : Place) (opening name : Token) (ts : List Token) :
    Answer.Moved m m.stmt (declarationValue ending opening name ts)
      (declarationValue (m.place ending) (m.token opening) (m.token name) (ts.map m.token)) := by
  cases ts with
  | nil => exact declarationEnd_moved m ending opening name none []
  | cons t rest =>
      rw [List.map_cons, declarationValue, declarationValue]
      apply Answer.Moved.ite Iff.rfl
      · obtain ⟨p, h, h'⟩ | ⟨value, after, _, _, h, h'⟩ := assignment_moved m ending rest
        · rw [h, h']
          exact .error p
        · rw [h, h']
          have hend := declarationEnd_moved m ending opening name (some value) after
          rw [Option.map_some] at hend
          obtain ⟨p, h, h'⟩ | ⟨stmt, rest, _, _, h, h'⟩ := hend
          · simp only [h, h']
            exact .error p
          · simp only [h, h']
            exact .ok _ _
      · exact declarationEnd_moved m ending opening name none (t :: rest)

theorem declaration_moved (ending : Place) (opening : Token) (ts : List Token) :
    Answer.Moved m m.stmt (declaration ending opening ts)
      (declaration (m.place ending) (m.token opening) (ts.map m.token)) := by
  cases ts with
  | nil => exact .error ⟨ending, .missingName⟩
  | cons name rest =>
      rw [List.map_cons, declaration, declaration]
      apply Answer.Moved.ite Iff.rfl
      · obtain ⟨p, h, h'⟩ | ⟨stmt, after, _, _, h, h'⟩ := declarationValue_moved m ending opening name rest
        · rw [h, h']
          exact .error p
        · rw [h, h']
          exact .ok _ _
      · exact .error ⟨name.place, .missingName⟩

theorem expressionStatement_moved (ending : Place) (ts : List Token) :
    Answer.Moved m m.stmt (expressionStatement ending ts)
      (expressionStatement (m.place ending) (ts.map m.token)) := by
  rw [expressionStatement, expressionStatement]
  obtain ⟨p, h, h'⟩ | ⟨e, rest, shorter, shorter', h, h'⟩ := assignment_moved m ending ts
  · rw [h, h']
    exact .error p
  · rw [h, h']
    have hstmt : m.stmt (.expression e e.span) = .expression (m.expr e) (m.expr e).span := by
      rw [Move.stmt, m.span_expr]
    cases rest with
    | nil =>
        simp only [List.map_nil, ← hstmt]
        exact .ok shorter shorter'
    | cons t rest =>
        apply Answer.Moved.ite Iff.rfl
        · rw [m.span_expr]
          exact .ok _ _
        · rw [← hstmt]
          exact .ok shorter shorter'

mutual

theorem statement_moved (ending : Place) (ts : List Token) :
    Answer.Moved m m.stmt (statement ending ts) (statement (m.place ending) (ts.map m.token)) := by
  cases ts with
  | nil =>
      rw [List.map_nil, statement, statement]
      exact expressionStatement_moved m ending []
  | cons t rest =>
      rw [List.map_cons, statement, statement]
      apply Answer.Moved.ite Iff.rfl
      · exact declaration_moved m ending t rest
      · apply Answer.Moved.ite Iff.rfl
        · obtain ⟨p, h, h'⟩ | ⟨⟨body, closing⟩, after, _, _, h, h'⟩ := blockBody_moved ending rest
          · rw [h, h']
            exact .error p
          · rw [h, h']
            exact .ok _ _
        · apply Answer.Moved.ite Iff.rfl
          · exact .error ⟨t.place, .reservedWord t.lexeme⟩
          · exact expressionStatement_moved m ending (t :: rest)
termination_by (ts.length, 0)

theorem blockBody_moved (ending : Place) (ts : List Token) :
    Answer.Moved m (Prod.map m.stmts m.token) (blockBody ending ts) (blockBody (m.place ending) (ts.map m.token)) := by
  cases ts with
  | nil =>
      rw [List.map_nil, blockBody, blockBody]
      exact .error ⟨ending, .unclosedBlock⟩
  | cons t rest =>
      rw [List.map_cons, blockBody, blockBody]
      apply Answer.Moved.ite Iff.rfl
      · exact .ok _ _
      · have hfirst : Answer.Moved m m.stmt (statement ending (t :: rest))
            (statement (m.place ending) (m.token t :: rest.map m.token)) := statement_moved ending (t :: rest)
        obtain ⟨p, h, h'⟩ | ⟨stmt, after, shorter, _, h, h'⟩ := hfirst
        · rw [h, h']
          exact .error p
        · rw [h, h']
          obtain ⟨p, h, h'⟩ | ⟨⟨body, closing⟩, rest, _, _, h, h'⟩ := blockBody_moved ending after
          · simp only [h, h']
            exact .error p
          · simp only [h, h']
            exact .ok _ _
termination_by (ts.length, 1)

end

theorem statements_moved (ending : Place) (ts : List Token) :
    statements (m.place ending) (ts.map m.token) = ((statements ending ts).map m.stmts).mapError m.misparse := by
  cases ts with
  | nil =>
      rw [List.map_nil, statements, statements]
      rfl
  | cons t rest =>
      have hfirst : Answer.Moved m m.stmt (statement ending (t :: rest))
          (statement (m.place ending) (m.token t :: rest.map m.token)) := statement_moved m ending (t :: rest)
      rw [List.map_cons, statements, statements]
      obtain ⟨p, h, h'⟩ | ⟨stmt, after, shorter, _, h, h'⟩ := hfirst
      · rw [h, h']
        rfl
      · rw [h, h']
        simp only [statements_moved ending after]
        cases statements ending after <;> rfl
termination_by ts.length
decreasing_by exact shorter

end Grammar

end Blockscript
