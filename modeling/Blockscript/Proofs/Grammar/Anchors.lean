import Blockscript.Grammar.Statement
import Blockscript.Proofs.Scan.Excerpts

/-!
# Where parsers are at fault

A parser that fails is at fault at one of its tokens, whose line and beginning the fault then has, or at the end of all tokens. A parser that succeeds leaves a tail of its tokens, so a parser that goes on from there is at fault at one of the same tokens. Each parser is followed branch by branch, as its calls end for the reason that its own calls end.

A token has the line on which it begins. So has a fault at a token. A fault at the end is placed behind the last token but keeps the line of that token, and this is another line if the token is a string with a line break in it.
-/

namespace Blockscript.Grammar

/-- A place begins with a token and is on its line, or it is the place of a fault at the end. -/
def Anchored (ending : Place) (ts : List Token) (place : Place) : Prop :=
  place = ending ∨ ∃ t ∈ ts, place.line = t.line ∧ place.span.start = t.span.start

theorem anchored_ending {ending : Place} {ts : List Token} : Anchored ending ts ending :=
  .inl rfl

theorem anchored_token {ending : Place} {ts : List Token} {t : Token} (h : t ∈ ts) : Anchored ending ts t.place :=
  .inr ⟨t, h, rfl, rfl⟩

theorem Anchored.mono {ending place : Place} {ts us : List Token} (h : Anchored ending ts place) (hsub : ts ⊆ us) :
    Anchored ending us place := by
  obtain hend | ⟨t, ht, hline, hstart⟩ := h
  · exact .inl hend
  · exact .inr ⟨t, hsub ht, hline, hstart⟩

/-- What a parser does with its tokens: it is at fault at one of them or at their end, or it leaves a tail of them. -/
def Answer.Within (ending : Place) (ts : List Token) {α : Type} {n : Nat} (answer : Answer α n) : Prop :=
  (∃ place problem, answer = .error ⟨place, problem⟩ ∧ Anchored ending ts place) ∨
  ∃ value rest shorter, answer = .ok ⟨value, rest, shorter⟩ ∧ rest <:+ ts

namespace Answer.Within

variable {ending : Place} {ts us : List Token} {α : Type} {n : Nat}

theorem error {place : Place} (problem : Problem) (h : Anchored ending ts place) :
    Within ending ts (.error ⟨place, problem⟩ : Answer α n) :=
  .inl ⟨place, problem, rfl, h⟩

theorem ok {value : α} {rest : List Token} (shorter : rest.length < n) (h : rest <:+ ts) :
    Within ending ts (.ok ⟨value, rest, shorter⟩ : Answer α n) :=
  .inr ⟨value, rest, shorter, rfl, h⟩

theorem mono {answer : Answer α n} (h : Within ending ts answer) (htail : ts <:+ us) : Within ending us answer := by
  obtain ⟨place, problem, rfl, hplace⟩ | ⟨value, rest, shorter, rfl, hrest⟩ := h
  · exact .error problem (hplace.mono htail.subset)
  · exact .ok shorter (hrest.trans htail)

theorem ite {c : Prop} [Decidable c] {yes no : Answer α n} (hyes : Within ending ts yes) (hno : Within ending ts no) :
    Within ending ts (if c then yes else no) := by
  by_cases h : c
  · rw [if_pos h]
    exact hyes
  · rw [if_neg h]
    exact hno

end Answer.Within

open Answer (Within)

variable (ending : Place)

mutual

theorem assignment_within (ts : List Token) : Within ending ts (assignment ending ts) := by
  rw [assignment]
  obtain ⟨place, problem, h, hplace⟩ | ⟨left, rest, shorter, h, hrest⟩ := chain_within .or ts
  · rw [h]
    exact .error problem hplace
  · rw [h]
    cases rest with
    | nil => exact .ok shorter hrest
    | cons t rest =>
        have hshorter : rest.length < ts.length := Nat.lt_of_succ_lt shorter
        have htail : rest <:+ ts := (List.suffix_cons t rest).trans hrest
        apply Within.ite
        · obtain ⟨place, problem, h, hplace⟩ | ⟨value, after, _, h, hafter⟩ := (assignment_within rest).mono htail
          · rw [h]
            exact .error problem hplace
          · rw [h]
            cases left with
            | reference name => exact .ok _ hafter
            | _ => exact .error .invalidTarget (anchored_token (hrest.subset List.mem_cons_self))
        · exact .ok shorter hrest
termination_by (ts.length, 2 * Level.or.height + 4)

theorem chain_within (level : Level) (ts : List Token) : Within ending ts (chain ending level ts) := by
  rw [chain]
  obtain ⟨place, problem, h, hplace⟩ | ⟨first, after, shorter, h, hafter⟩ := operand_within level ts
  · rw [h]
    exact .error problem hplace
  · rw [h]
    obtain ⟨place, problem, h, hplace⟩ | ⟨e, rest, _, h, hrest⟩ := (chainFrom_within level first after).mono hafter
    · simp only [h]
      exact .error problem hplace
    · simp only [h]
      exact .ok _ hrest
termination_by (ts.length, 2 * level.height + 3)

theorem chainFrom_within (level : Level) (left : Expr) (ts : List Token) :
    Within ending ts (chainFrom ending level left ts) := by
  cases ts with
  | nil =>
      rw [chainFrom]
      exact .ok _ List.suffix_rfl
  | cons op rest =>
      have htail : rest <:+ op :: rest := List.suffix_cons op rest
      rw [chainFrom]
      apply Within.ite
      · apply Within.ite
        · obtain ⟨place, problem, h, hplace⟩ | ⟨right, after, shorter, h, hafter⟩ :=
            (operand_within level rest).mono htail
          · rw [h]
            exact .error problem hplace
          · rw [h]
            obtain ⟨place, problem, h, hplace⟩ | ⟨e, rest, _, h, hrest⟩ :=
              (chainFrom_within level (.ofBinary left op right) after).mono hafter
            · simp only [h]
              exact .error problem hplace
            · simp only [h]
              exact .ok _ hrest
        · exact .error _ (anchored_token List.mem_cons_self)
      · exact .ok _ List.suffix_rfl
termination_by (ts.length, 0)

theorem operand_within (level : Level) (ts : List Token) : Within ending ts (operand ending level ts) := by
  have hchain (next : Level) (hnext : level.tighter = some next) : Within ending ts (chain ending next ts) :=
    have := Level.height_tighter hnext
    chain_within next ts
  have hunary := unary_within ts
  cases level <;> rw [operand]
  case factor => exact hunary
  all_goals exact hchain _ rfl
termination_by (ts.length, 2 * level.height + 2)

theorem unary_within (ts : List Token) : Within ending ts (unary ending ts) := by
  cases ts with
  | nil =>
      rw [unary]
      exact .error .missingExpression anchored_ending
  | cons t rest =>
      rw [unary]
      apply Within.ite
      · obtain ⟨place, problem, h, hplace⟩ | ⟨right, after, _, h, hafter⟩ :=
          (unary_within rest).mono (List.suffix_cons t rest)
        · rw [h]
          exact .error problem hplace
        · rw [h]
          exact .ok _ hafter
      · exact primary_within t rest
termination_by (ts.length, 1)

theorem primary_within (t : Token) (rest : List Token) : Within ending (t :: rest) (primary ending t rest) := by
  have hparenthesised := parenthesised_within t rest
  have htail : rest <:+ t :: rest := List.suffix_cons t rest
  have hfirst : Anchored ending (t :: rest) t.place := anchored_token List.mem_cons_self
  rw [primary]
  cases t.kind with
  | leftParen => exact hparenthesised
  | number | string =>
      cases t.literal with
      | none => exact .error _ hfirst
      | some value => exact .ok _ htail
  | falseWord | trueWord | nullWord | identifier => exact .ok _ htail
  | _ => exact .error _ hfirst
termination_by (rest.length + 1, 0)

theorem parenthesised_within (opening : Token) (ts : List Token) :
    Within ending (opening :: ts) (parenthesised ending opening ts) := by
  cases ts with
  | nil =>
      rw [parenthesised]
      exact .error .missingExpression anchored_ending
  | cons t rest =>
      rw [parenthesised]
      apply Within.ite
      · exact .error _ (.inr ⟨opening, List.mem_cons_self, rfl, rfl⟩)
      · obtain ⟨place, problem, h, hplace⟩ | ⟨inner, after, shorter, h, hafter⟩ :=
          (assignment_within (t :: rest)).mono (List.suffix_cons opening _)
        · rw [h]
          exact .error problem hplace
        · rw [h]
          cases after with
          | nil => exact .error .unclosedParenthesis anchored_ending
          | cons closing after =>
              apply Within.ite
              · exact .ok _ ((List.suffix_cons closing after).trans hafter)
              · exact .error _ (anchored_token (hafter.subset List.mem_cons_self))
termination_by (ts.length, 2 * Level.or.height + 5)

end

theorem declarationEnd_within (opening name : Token) (initializer : Option Expr) (ts : List Token) :
    Within ending ts (declarationEnd ending opening name initializer ts) := by
  cases ts with
  | nil => exact .error .missingSemicolon anchored_ending
  | cons t rest =>
      apply Within.ite
      · exact .ok _ (List.suffix_cons t rest)
      · exact .error _ (anchored_token List.mem_cons_self)

theorem declarationValue_within (opening name : Token) (ts : List Token) :
    Within ending ts (declarationValue ending opening name ts) := by
  cases ts with
  | nil => exact declarationEnd_within ending opening name none []
  | cons t rest =>
      rw [declarationValue]
      apply Within.ite
      · obtain ⟨place, problem, h, hplace⟩ | ⟨value, after, _, h, hafter⟩ :=
          (assignment_within ending rest).mono (List.suffix_cons t rest)
        · rw [h]
          exact .error problem hplace
        · rw [h]
          obtain ⟨place, problem, h, hplace⟩ | ⟨stmt, rest, _, h, hrest⟩ :=
            (declarationEnd_within ending opening name (some value) after).mono hafter
          · simp only [h]
            exact .error problem hplace
          · simp only [h]
            exact .ok _ hrest
      · exact declarationEnd_within ending opening name none (t :: rest)

theorem declaration_within (opening : Token) (ts : List Token) : Within ending ts (declaration ending opening ts) := by
  cases ts with
  | nil => exact .error .missingName anchored_ending
  | cons name rest =>
      rw [declaration]
      apply Within.ite
      · obtain ⟨place, problem, h, hplace⟩ | ⟨stmt, after, _, h, hafter⟩ :=
          (declarationValue_within ending opening name rest).mono (List.suffix_cons name rest)
        · rw [h]
          exact .error problem hplace
        · rw [h]
          exact .ok _ hafter
      · exact .error _ (anchored_token List.mem_cons_self)

theorem expressionStatement_within (ts : List Token) : Within ending ts (expressionStatement ending ts) := by
  rw [expressionStatement]
  obtain ⟨place, problem, h, hplace⟩ | ⟨e, rest, shorter, h, hrest⟩ := assignment_within ending ts
  · rw [h]
    exact .error problem hplace
  · rw [h]
    cases rest with
    | nil => exact .ok shorter hrest
    | cons t rest =>
        apply Within.ite
        · exact .ok _ ((List.suffix_cons t rest).trans hrest)
        · exact .ok shorter hrest

mutual

theorem statement_within (ts : List Token) : Within ending ts (statement ending ts) := by
  cases ts with
  | nil =>
      rw [statement]
      exact expressionStatement_within ending []
  | cons t rest =>
      have htail : rest <:+ t :: rest := List.suffix_cons t rest
      rw [statement]
      apply Within.ite
      · exact (declaration_within ending t rest).mono htail
      · apply Within.ite
        · obtain ⟨place, problem, h, hplace⟩ | ⟨⟨body, closing⟩, after, _, h, hafter⟩ := (blockBody_within rest).mono htail
          · rw [h]
            exact .error problem hplace
          · rw [h]
            exact .ok _ hafter
        · apply Within.ite
          · exact .error _ (anchored_token List.mem_cons_self)
          · exact expressionStatement_within ending (t :: rest)
termination_by (ts.length, 0)

theorem blockBody_within (ts : List Token) : Within ending ts (blockBody ending ts) := by
  cases ts with
  | nil =>
      rw [blockBody]
      exact .error .unclosedBlock anchored_ending
  | cons t rest =>
      rw [blockBody]
      apply Within.ite
      · exact .ok _ (List.suffix_cons t rest)
      · obtain ⟨place, problem, h, hplace⟩ | ⟨stmt, after, shorter, h, hafter⟩ := statement_within (t :: rest)
        · rw [h]
          exact .error problem hplace
        · rw [h]
          obtain ⟨place, problem, h, hplace⟩ | ⟨⟨body, closing⟩, rest, _, h, hrest⟩ := (blockBody_within after).mono hafter
          · simp only [h]
            exact .error problem hplace
          · simp only [h]
            exact .ok _ hrest
termination_by (ts.length, 1)

end

theorem statements_anchored {ts : List Token} {m : Misparse} (h : statements ending ts = .error m) :
    Anchored ending ts m.place := by
  cases ts with
  | nil =>
      rw [statements] at h
      cases h
  | cons t rest =>
      rw [statements] at h
      obtain ⟨place, problem, hfirst, hplace⟩ | ⟨stmt, after, shorter, hfirst, hafter⟩ := statement_within ending (t :: rest)
      · rw [hfirst] at h
        cases h
        exact hplace
      · rw [hfirst] at h
        cases hmore : statements ending after with
        | ok more => simp [hmore] at h
        | error m' =>
            simp only [hmore] at h
            obtain rfl := Except.error.inj h
            exact (statements_anchored hmore).mono hafter.subset
termination_by ts.length

end Blockscript.Grammar

namespace Blockscript

open Scan Grammar

theorem parseProgram_anchored {ts : List Token} {fault : Fault} (h : parseProgram ts = .error fault) :
    ∃ m : Misparse, fault = m.fault ∧ Anchored (endPlace ts) ts m.place := by
  rw [parseProgram] at h
  cases hparse : statements (endPlace ts) ts with
  | ok program => simp [hparse] at h
  | error m =>
      simp only [hparse] at h
      exact ⟨m, (Except.error.inj h).symm, statements_anchored _ hparse⟩

theorem parseExpression_anchored {ts : List Token} {fault : Fault} (h : parseExpression ts = .error fault) :
    ∃ m : Misparse, fault = m.fault ∧ Anchored (endPlace ts) ts m.place := by
  rw [parseExpression] at h
  obtain ⟨place, problem, hparse, hplace⟩ | ⟨e, rest, shorter, hparse, hrest⟩ := assignment_within (endPlace ts) ts
  · rw [hparse] at h
    exact ⟨⟨place, problem⟩, (Except.error.inj h).symm, hplace⟩
  · rw [hparse] at h
    cases rest with
    | nil => cases h
    | cons t rest =>
        exact ⟨⟨t.place, .trailingToken t.lexeme⟩, (Except.error.inj h).symm,
          anchored_token (hrest.subset List.mem_cons_self)⟩

/-! ### Lines of faults -/

namespace Token.Stands

variable {t : Token} {source : String}

theorem linesBefore_stop (h : t.Stands source) :
    linesBefore source t.span.stop = linesBefore source t.span.start + t.lexeme.toList.count '\n' := by
  have hstop : t.span.stop = t.span.start + (t.span.stop - t.span.start) := (Nat.add_sub_of_le (Nat.le_of_lt h.nonempty)).symm
  rw [linesBefore, hstop, List.take_add, List.count_append, h.lexeme, excerpt, String.toList_ofList,
    List.extract_eq_take_drop]
  rfl

/-- Of all tokens only a string can go on behind a line break. -/
theorem kind_of_break (h : t.Stands source) (hbreak : '\n' ∈ t.lexeme.toList) : t.kind = .string := by
  have hspelled := h.spelled
  rcases hspelled.break_cases hbreak with htext | ⟨inline, htext, hinline⟩ | ⟨inside, htext, hinside⟩
  · rw [htext] at hspelled
    cases hspelled.content_unique (.space (by decide))
  · rw [htext] at hspelled
    cases hspelled.content_unique (.commentLine hinline)
  · rw [htext] at hspelled
    injection hspelled.content_unique (.string hinside)

end Token.Stands

/-- The last of some tokens goes on behind a line break. -/
def Grammar.LastBreaks (ts : List Token) : Prop :=
  ∃ last ∈ ts.getLast?, '\n' ∈ last.lexeme.toList

/-- A fault at the end has the line of the last token, and begins further down by the breaks in that token. -/
theorem endPlace_lines {source : String} {ts : List Token} (hstands : ∀ t ∈ ts, t.Stands source) :
    (endPlace ts).span.start ≤ source.length ∧
    ((endPlace ts).line = 1 + linesBefore source (endPlace ts).span.start ↔ ¬LastBreaks ts) ∧
    ∀ last ∈ ts.getLast?, (endPlace ts).line = 1 + linesBefore source last.span.start ∧
      (endPlace ts).line + last.lexeme.toList.count '\n' = 1 + linesBefore source (endPlace ts).span.start := by
  rw [endPlace, LastBreaks]
  cases hlast : ts.getLast? with
  | none => simp [linesBefore, Span.single]
  | some last =>
      have hstand := hstands last (List.mem_of_getLast? hlast)
      have hline : last.line = 1 + linesBefore source last.span.start := hstand.line
      have hstop := hstand.linesBefore_stop
      have hcount : 0 < last.lexeme.toList.count '\n' ↔ '\n' ∈ last.lexeme.toList := List.count_pos_iff
      simp only [Span.single, Option.mem_some, exists_eq_left', forall_eq', ← hcount]
      exact ⟨hstand.inside, by omega, hline, by omega⟩

/-- **Lines of parse faults.** A text that is read but not parsed, as a program or as an expression, has a parse fault whose range begins in the text. Its line is the one on which the range begins, unless the fault is at the end and the last token is a string with line breaks in it: then it is the line on which that string begins. -/
theorem parse_fault_line_iff {source : String} {ts : List Token} {fault : Fault} (hscan : scan source = .ok ts)
    (h : parseProgram ts = .error fault ∨ parseExpression ts = .error fault) :
    ∃ place message help, fault = .parse place message help ∧ place.span.start ≤ source.length ∧
      (place.line = 1 + linesBefore source place.span.start ↔ ¬(place = endPlace ts ∧ LastBreaks ts)) ∧
      (place = endPlace ts → LastBreaks ts → ∃ last ∈ ts.getLast?, last.kind = .string ∧
        place.line = 1 + linesBefore source last.span.start ∧
        place.line + last.lexeme.toList.count '\n' = 1 + linesBefore source place.span.start) := by
  have hstands := scan_stands hscan
  obtain ⟨m, rfl, hanchored⟩ := h.elim parseProgram_anchored parseExpression_anchored
  refine ⟨m.place, m.problem.message, m.problem.help, rfl, ?_⟩
  by_cases hend : m.place = endPlace ts
  · obtain ⟨hinside, hline, hlast⟩ := endPlace_lines hstands
    rw [hend]
    refine ⟨hinside, by simpa using hline, ?_⟩
    rintro - ⟨last, hmem, hbreak⟩
    have hkind := (hstands last (List.mem_of_getLast? hmem)).kind_of_break hbreak
    exact ⟨last, hmem, hkind, hlast last hmem⟩
  · obtain hfalse | ⟨t, ht, hline, hstart⟩ := hanchored
    · exact absurd hfalse hend
    have hstand := hstands t ht
    rw [hline, hstart]
    refine ⟨Nat.le_trans (Nat.le_of_lt hstand.nonempty) hstand.inside, ?_, fun heq => absurd heq hend⟩
    exact ⟨fun _ hboth => hend hboth.1, fun _ => hstand.line⟩

/-- The parenthesis behind a string is on the second line. So is the end of the other text, but the fault there has the line of the string. -/
theorem parse_fault_line_behind_string :
    let string : Token := ⟨.string, "\"a\nb\"", ⟨1, ⟨0, 5⟩⟩, some (.string "a\nb")⟩
    let closing : Token := ⟨.rightParen, ")", ⟨2, ⟨5, 6⟩⟩, none⟩
    scan "\"a\nb\")" = .ok [string, closing] ∧
      parseExpression [string, closing] = .error (Misparse.fault ⟨⟨2, ⟨5, 6⟩⟩, .trailingToken ")"⟩) ∧
      2 = 1 + linesBefore "\"a\nb\")" 5 := by
  intro string closing
  have hscan : scan "\"a\nb\")" = .ok [string, closing] := by decide +kernel
  have hparse : parseExpression [string, closing] = .error (Misparse.fault ⟨⟨2, ⟨5, 6⟩⟩, .trailingToken ")"⟩) := by
    decide +kernel
  obtain ⟨place, message, help, hfault, -, hline, -⟩ := parse_fault_line_iff hscan (.inr hparse)
  cases hfault
  exact ⟨hscan, hparse, hline.2 fun hboth => absurd hboth.1 (by decide)⟩

/-- The end of a text that lacks a semicolon is on the second line, and the fault there says it is on the first. -/
theorem declaration_fault_line_differs :
    let source := "var x = \"a\nb\""
    let place : Place := ⟨1, ⟨13, 14⟩⟩
    ∃ ts, scan source = .ok ts ∧
      parseProgram ts = .error (.parse place "Expected ';' after variable declaration" none) ∧
      place.line ≠ 1 + linesBefore source place.span.start := by
  intro source place
  let ts : List Token := [⟨.varWord, "var", ⟨1, ⟨0, 3⟩⟩, none⟩, ⟨.identifier, "x", ⟨1, ⟨4, 5⟩⟩, none⟩,
    ⟨.assign, "=", ⟨1, ⟨6, 7⟩⟩, none⟩, ⟨.string, "\"a\nb\"", ⟨1, ⟨8, 13⟩⟩, some (.string "a\nb")⟩]
  have hscan : scan source = .ok ts := by decide +kernel
  exact ⟨ts, hscan, by decide +kernel, by decide⟩

end Blockscript
