import Blockscript.Proofs.Grammar.Anchors
import Blockscript.Proofs.Grammar.Runs

/-!
# Parsers make progress

A parser with a cursor does what the parser of the grammar does with the tokens that the cursor stands before, which are fewer with every call but a few. So its loops and calls end at a depth that is known beforehand; and its cursor has passed a token whenever the one before it is read.

Each walk is followed from call to call, as the parser whose work it does. The calls that may be open before the same token have numbers below twenty, each call a smaller one than the call that makes it. Behind a further token a call may have any number.
-/

namespace Blockscript.Grammar.Cursor

/-! ### Expressions -/

theorem chain_nil (ending : Place) (level : Level) :
    Grammar.chain ending level [] = .error ⟨ending, .missingExpression⟩ := by
  have hchain (next : Level) (hnext : level.tighter = some next) :
      Grammar.chain ending next [] = .error ⟨ending, .missingExpression⟩ :=
    have := Level.height_tighter hnext
    chain_nil ending next
  have hunary : Grammar.unary ending [] = .error ⟨ending, .missingExpression⟩ := by rw [Grammar.unary]
  have hoperand : Grammar.operand ending level [] = .error ⟨ending, .missingExpression⟩ := by
    cases level <;> rw [Grammar.operand]
    case factor => exact hunary
    all_goals exact hchain _ rfl
  rw [Grammar.chain, hoperand]
termination_by level.height

theorem assignment_nil (ending : Place) : Grammar.assignment ending [] = .error ⟨ending, .missingExpression⟩ := by
  rw [Grammar.assignment, chain_nil]

section

variable {ts : List Token}

open PerformsAs

mutual

theorem assignment_performs (hts : Countable ts) {s : State} {us : List Token} (hus : s.Before ts us)
    {depth : Nat} (hdepth : 20 * us.length + 14 < depth) :
    Performs ts s (assignment ts depth) (Grammar.assignment (endPlace ts) us) := by
  obtain ⟨depth, rfl⟩ := Nat.exists_eq_add_one_of_ne_zero (Nat.ne_zero_of_lt hdepth)
  have hheight : Level.or.height = 5 := rfl
  rw [assignment, Grammar.assignment]
  refine followed (chain_performs hts .or hus (by omega)) (fun m h => by rw [h]) ?_
  rintro left rest shorter s' _ h rfl hrest
  rw [h]
  cases rest with
  | nil =>
      refine not_accepted hrest (by simp) ?_
      exact done shorter rfl hrest
  | cons t rest =>
      have hshorter : rest.length < us.length := Nat.lt_of_succ_lt shorter
      by_cases hkind : t.kind = .assign
      · simp only [if_pos hkind]
        refine accepted hrest (beq_iff_eq.2 hkind) (passed hrest ?_)
        refine followed (assignment_performs hts hrest.pass (by omega)) (fun m h => by rw [h]) ?_
        rintro value after' _ s'' _ h rfl hafter
        rw [h]
        cases left with
        | reference name => exact done _ rfl hafter
        | _ => exact refused t.place .invalidTarget
      · simp only [if_neg hkind]
        refine not_accepted hrest (forall_head (beq_eq_false_iff_ne.2 hkind)) ?_
        exact done shorter rfl hrest
termination_by depth
decreasing_by all_goals omega

theorem chain_performs (hts : Countable ts) (level : Level) {s : State} {us : List Token} (hus : s.Before ts us)
    {depth : Nat} (hdepth : 20 * us.length + 2 * level.height + 3 < depth) :
    Performs ts s (chain ts depth level) (Grammar.chain (endPlace ts) level us) := by
  obtain ⟨depth, rfl⟩ := Nat.exists_eq_add_one_of_ne_zero (Nat.ne_zero_of_lt hdepth)
  rw [chain, Grammar.chain]
  refine followed (operand_performs hts level hus (by omega)) (fun m h => by rw [h]) ?_
  rintro first rest shorter s' _ h rfl hrest
  rw [h]
  exact handedOn (chainFrom_performs hts level first hrest (by omega)) (fun m h => by simp only [h])
    fun p h => by simp [h]
termination_by depth
decreasing_by all_goals omega

theorem chainFrom_performs (hts : Countable ts) (level : Level) (left : Expr) {s : State} {us : List Token}
    (hus : s.Before ts us) {depth : Nat} (hdepth : 20 * us.length + 2 * level.height < depth) :
    Performs ts s (chainFrom ts depth level left) (Grammar.chainFrom (endPlace ts) level left us) := by
  obtain ⟨depth, rfl⟩ := Nat.exists_eq_add_one_of_ne_zero (Nat.ne_zero_of_lt hdepth)
  rw [chainFrom]
  cases us with
  | nil =>
      rw [Grammar.chainFrom]
      refine not_accepted hus (by simp) ?_
      exact done _ rfl hus
  | cons op rest =>
      rw [List.length_cons] at hdepth
      rw [Grammar.chainFrom]
      by_cases hop : level.admits op.kind = true
      · rw [if_pos hop]
        refine accepted hus hop (passed hus (look hus.pass ?_))
        have hbegins : rest.head?.any (·.kind.startsExpression) = beginsExpression rest := by
          cases rest <;> rfl
        rw [hbegins]
        by_cases hstarts : beginsExpression rest = true
        · rw [if_pos hstarts, if_pos hstarts]
          refine followed (operand_performs hts level hus.pass (by omega)) (fun m h => by rw [h]) ?_
          rintro right after' shorter s' _ h rfl hafter
          rw [h]
          exact handedOn (chainFrom_performs hts level (.ofBinary left op right) hafter (by omega))
            (fun m h => by simp only [h]) fun p h => by simp [h]
        · rw [if_neg hstarts, if_neg hstarts]
          exact refused op.place (.missingOperand op.lexeme)
      · rw [if_neg hop]
        refine not_accepted hus (forall_head (Bool.not_eq_true _ ▸ hop)) ?_
        exact done _ rfl hus
termination_by depth
decreasing_by all_goals omega

theorem operand_performs (hts : Countable ts) (level : Level) {s : State} {us : List Token} (hus : s.Before ts us)
    {depth : Nat} (hdepth : 20 * us.length + 2 * level.height + 2 < depth) :
    Performs ts s (operand ts depth level) (Grammar.operand (endPlace ts) level us) := by
  obtain ⟨depth, rfl⟩ := Nat.exists_eq_add_one_of_ne_zero (Nat.ne_zero_of_lt hdepth)
  rw [operand]
  refine watched hus ?_
  have hchain (next : Level) (hnext : level.tighter = some next) :
      Performs ts (s.mark (.began s.cursor)) (chain ts depth next) (Grammar.chain (endPlace ts) next us) :=
    have := Level.height_tighter hnext
    chain_performs hts next (hus.mark _) (by omega)
  have hunary := unary_performs hts (hus.mark (.began s.cursor)) (show _ < depth by omega)
  cases level <;> rw [Grammar.operand]
  case factor => exact hunary
  all_goals exact hchain _ rfl
termination_by depth
decreasing_by all_goals omega

theorem unary_performs (hts : Countable ts) {s : State} {us : List Token} (hus : s.Before ts us)
    {depth : Nat} (hdepth : 20 * us.length + 1 < depth) :
    Performs ts s (unary ts depth) (Grammar.unary (endPlace ts) us) := by
  obtain ⟨depth, rfl⟩ := Nat.exists_eq_add_one_of_ne_zero (Nat.ne_zero_of_lt hdepth)
  rw [unary]
  cases us with
  | nil =>
      rw [Grammar.unary]
      refine not_accepted hus (by simp) ?_
      obtain ⟨depth, rfl⟩ := Nat.exists_eq_add_one_of_ne_zero (show depth ≠ 0 by omega)
      rw [primary]
      refine look hus ?_
      exact fail (refuseAtEnd_misses hts .missingExpression s) .rfl
  | cons t rest =>
      rw [List.length_cons] at hdepth
      rw [Grammar.unary]
      by_cases hop : t.kind = .not ∨ t.kind = .subtract
      · rw [if_pos hop]
        refine accepted hus (by simpa using hop) (passed hus ?_)
        refine followed (unary_performs hts hus.pass (by omega)) (fun m h => by rw [h]) ?_
        rintro right after' _ s' _ h rfl hafter
        rw [h]
        exact done _ rfl hafter
      · rw [if_neg hop]
        refine not_accepted hus (forall_head (by simpa using hop)) ?_
        exact primary_performs hts hus (by omega)
termination_by depth
decreasing_by all_goals omega

theorem primary_performs (hts : Countable ts) {s : State} {t : Token} {rest : List Token}
    (hus : s.Before ts (t :: rest)) {depth : Nat} (hdepth : 20 * rest.length + 20 < depth) :
    Performs ts s (primary ts depth) (Grammar.primary (endPlace ts) t rest) := by
  obtain ⟨depth, rfl⟩ := Nat.exists_eq_add_one_of_ne_zero (Nat.ne_zero_of_lt hdepth)
  have hparenthesised := parenthesised_performs hts t hus.move (show _ < depth by omega)
  rw [primary, Grammar.primary]
  refine look hus (after (comes_advance hus) hus.leads ?_)
  cases t.kind with
  | leftParen => exact hparenthesised
  | number | string =>
      cases t.literal with
      | none => exact refused t.place .valuelessLiteral
      | some value => exact done _ rfl hus.move
  | falseWord | trueWord | nullWord | identifier => exact done _ rfl hus.move
  | _ => exact refused t.place _
termination_by depth
decreasing_by all_goals omega

theorem parenthesised_performs (hts : Countable ts) (opening : Token) {s : State} {us : List Token}
    (hus : s.Before ts us) {depth : Nat} (hdepth : 20 * us.length + 17 < depth) :
    Performs ts s (parenthesised ts depth opening) (Grammar.parenthesised (endPlace ts) opening us) := by
  obtain ⟨depth, rfl⟩ := Nat.exists_eq_add_of_le' (show 2 ≤ depth by omega)
  rw [parenthesised]
  refine look hus ?_
  cases us with
  | nil =>
      rw [Grammar.parenthesised]
      simp only [List.head?_nil]
      rw [grouping]
      have hexpression := expression_performs hts hus (show _ < depth by omega)
      rw [assignment_nil] at hexpression
      refine followed hexpression (fun m h => by cases h; rfl) ?_
      rintro value rest shorter s' _ h - -
      cases h
  | cons t rest =>
      rw [Grammar.parenthesised]
      by_cases hempty : t.kind = .rightParen
      · simp only [List.head?_cons, if_pos hempty]
        exact refused _ .emptyParentheses
      · simp only [List.head?_cons, if_neg hempty]
        rw [grouping]
        refine followed (expression_performs hts hus (by omega)) (fun m h => by rw [h]) ?_
        rintro inner after' shorter s' _ h rfl hafter
        rw [h]
        cases after' with
        | nil => exact not_consumed_end hts hafter
        | cons closing after' =>
            by_cases hclosing : closing.kind = .rightParen
            · simp only [if_pos hclosing]
              refine consumed hafter hclosing ?_
              exact done _ rfl hafter.pass
            · simp only [if_neg hclosing]
              exact not_consumed hafter hclosing
termination_by depth
decreasing_by all_goals omega

theorem expression_performs (hts : Countable ts) {s : State} {us : List Token} (hus : s.Before ts us)
    {depth : Nat} (hdepth : 20 * us.length + 15 < depth) :
    Performs ts s (expression ts depth) (Grammar.assignment (endPlace ts) us) := by
  obtain ⟨depth, rfl⟩ := Nat.exists_eq_add_one_of_ne_zero (Nat.ne_zero_of_lt hdepth)
  rw [expression]
  exact watched hus (assignment_performs hts (hus.mark _) (by omega))
termination_by depth
decreasing_by all_goals omega

end

/-! ### Statements -/

/-- The tokens that an expression was found in end where its range does, so the token before the cursor adds nothing to it. -/
theorem exists_behind_expression {ending : Place} {s s' : State} {us rest : List Token} {e : Expr}
    (hus : s.Before ts us) (hrest : s'.Before ts rest) (h : Yields (Grammar.assignment ending us) e rest) :
    ∃ last, s'.Behind ts last ∧ e.span.through last.span = e.span := by
  obtain ⟨ps, rfl, hderives, -⟩ := assignment_yields_iff.1 h
  have hlast := List.getLast?_eq_some_getLast hderives.ne_nil
  refine ⟨_, hus.behind_last hrest hlast, ?_⟩
  rw [hderives.span_eq, cover, List.head?_eq_some_head hderives.ne_nil, hlast]
  rfl

theorem expressionStatement_performs (hts : Countable ts) {s : State} {us : List Token} (hus : s.Before ts us)
    {depth : Nat} (hdepth : 20 * us.length + 15 < depth) :
    Performs ts s (expressionStatement ts depth) (Grammar.expressionStatement (endPlace ts) us) := by
  rw [expressionStatement, Grammar.expressionStatement]
  refine followed (expression_performs hts hus hdepth) (fun m h => by rw [h]) ?_
  rintro e rest shorter s' _ h rfl hrest
  obtain ⟨last, hlast, hspan⟩ := exists_behind_expression hus hrest ⟨shorter, h⟩
  rw [h]
  cases rest with
  | nil =>
      refine after (comes_accept_not hrest (by simp)) .rfl (lookBack hlast ?_)
      rw [hspan]
      exact done shorter rfl hrest
  | cons t rest =>
      by_cases hkind : t.kind = .semicolon
      · simp only [if_pos hkind]
        refine after (comes_accept hrest (beq_iff_eq.2 hkind)) hrest.leads (passed hrest ?_)
        exact done _ rfl hrest.pass
      · simp only [if_neg hkind]
        refine after (comes_accept_not hrest (forall_head (beq_eq_false_iff_ne.2 hkind))) .rfl (lookBack hlast ?_)
        rw [hspan]
        exact done shorter rfl hrest

theorem declarationEnd_performs (hts : Countable ts) (opening name : Token) (initializer : Option Expr) {s : State}
    {us : List Token} (hus : s.Before ts us) :
    Performs ts s
      (do
        let _ ← consume ts .semicolon .missingSemicolon
        let last ← previous ts
        return .var name initializer (opening.span.through last.span))
      (Grammar.declarationEnd (endPlace ts) opening name initializer us) := by
  cases us with
  | nil => exact not_consumed_end hts hus
  | cons t rest =>
      rw [Grammar.declarationEnd]
      by_cases hkind : t.kind = .semicolon
      · rw [if_pos hkind]
        refine consumed hus hkind (lookBack (hus.behind.mark _) ?_)
        exact done _ rfl hus.pass
      · rw [if_neg hkind]
        exact not_consumed hus hkind

theorem initializer?_absent {s : State} {us : List Token} (hus : s.Before ts us)
    (hkind : ∀ t ∈ us.head?, (t.kind == .assign) = false) (depth : Nat) :
    Comes (varDeclaration.initializer? ts depth) s (.ok none) s := by
  refine (comes_accept_not hus hkind).bind ?_
  exact .pure none s

theorem initializer?_performs (hts : Countable ts) {s : State} {t : Token} {rest : List Token}
    (hus : s.Before ts (t :: rest)) (hkind : t.kind = .assign) {depth : Nat} (hdepth : 20 * rest.length + 15 < depth) :
    PerformsAs ts s (fun _ initializer value => initializer = some value) (varDeclaration.initializer? ts depth)
      (Grammar.assignment (endPlace ts) rest) := by
  rw [varDeclaration.initializer?]
  refine accepted hus (beq_iff_eq.2 hkind) ?_
  refine followed (expression_performs hts hus.move hdepth) (fun m h => h) ?_
  rintro value after' _ s' _ h rfl hafter
  rw [h]
  exact done _ rfl hafter

theorem declarationValue_performs (hts : Countable ts) (opening name : Token) {s : State} {us : List Token}
    (hus : s.Before ts us) {depth : Nat} (hdepth : 20 * us.length < depth) :
    Performs ts s
      (do
        let initializer ← varDeclaration.initializer? ts depth
        let _ ← consume ts .semicolon .missingSemicolon
        let last ← previous ts
        return .var name initializer (opening.span.through last.span))
      (Grammar.declarationValue (endPlace ts) opening name us) := by
  cases us with
  | nil =>
      refine after (initializer?_absent hus (by simp) depth) .rfl ?_
      exact declarationEnd_performs hts opening name none hus
  | cons t rest =>
      rw [List.length_cons] at hdepth
      rw [Grammar.declarationValue]
      by_cases hkind : t.kind = .assign
      · rw [if_pos hkind]
        refine followed (initializer?_performs hts hus hkind (by omega)) (fun m h => by rw [h]) ?_
        rintro value after' _ s' _ h rfl hafter
        rw [h]
        exact handedOn (declarationEnd_performs hts opening name (some value) hafter) (fun m h => by simp only [h])
          fun p h => by simp [h]
      · rw [if_neg hkind]
        refine after (initializer?_absent hus (forall_head (beq_eq_false_iff_ne.2 hkind)) depth) .rfl ?_
        exact declarationEnd_performs hts opening name none hus

/-- The cursor stands behind the opening word. -/
theorem varDeclaration_performs (hts : Countable ts) {opening : Token} {s : State} {us : List Token}
    (hus : s.Before ts (opening :: us)) {depth : Nat} (hdepth : 20 * us.length < depth) :
    Performs ts s.move (varDeclaration ts depth) (Grammar.declaration (endPlace ts) opening us) := by
  rw [varDeclaration]
  refine passed hus ?_
  cases us with
  | nil => exact not_consumed_end hts hus.pass
  | cons name rest =>
      rw [List.length_cons] at hdepth
      rw [Grammar.declaration]
      by_cases hkind : name.kind = .identifier
      · rw [if_pos hkind]
        refine consumed hus.pass hkind ?_
        exact handedOn (declarationValue_performs hts opening name hus.pass.pass (show _ < depth by omega))
          (fun m h => by simp only [h]) fun p h => by simp [h]
      · rw [if_neg hkind]
        exact not_consumed hus.pass hkind

/-- What remains of a block has these statements, and the cursor stands behind its closing brace. -/
def Completes (ts : List Token) (body : List Stmt) (s : State) (whole : List Stmt) (rest : List Stmt × Token) : Prop :=
  whole = body ++ rest.1 ∧ s.Behind ts rest.2

mutual

theorem declaration_performs (hts : Countable ts) {s : State} {us : List Token} (hus : s.Before ts us)
    {depth : Nat} (hdepth : 20 * us.length + 18 < depth) :
    Performs ts s (declaration ts depth) (Grammar.statement (endPlace ts) us) := by
  obtain ⟨depth, rfl⟩ := Nat.exists_eq_add_one_of_ne_zero (Nat.ne_zero_of_lt hdepth)
  rw [declaration]
  exact watched hus (declarationOrStatement_performs hts (hus.mark _) (by omega))
termination_by depth
decreasing_by all_goals omega

theorem declarationOrStatement_performs (hts : Countable ts) {s : State} {us : List Token} (hus : s.Before ts us)
    {depth : Nat} (hdepth : 20 * us.length + 17 < depth) :
    Performs ts s (declarationOrStatement ts depth) (Grammar.statement (endPlace ts) us) := by
  obtain ⟨depth, rfl⟩ := Nat.exists_eq_add_of_le' (show 2 ≤ depth by omega)
  rw [declarationOrStatement]
  cases us with
  | nil =>
      rw [Grammar.statement]
      refine not_accepted hus (by simp) ?_
      rw [statement]
      refine not_accepted hus (by simp) (look hus ?_)
      exact expressionStatement_performs hts hus (by omega)
  | cons t rest =>
      rw [List.length_cons] at hdepth
      rw [Grammar.statement]
      by_cases hvar : t.kind = .varWord
      · rw [if_pos hvar]
        refine accepted hus (beq_iff_eq.2 hvar) ?_
        exact varDeclaration_performs hts hus (by omega)
      · rw [if_neg hvar]
        refine not_accepted hus (forall_head (beq_eq_false_iff_ne.2 hvar)) ?_
        rw [statement]
        by_cases hbrace : t.kind = .leftBrace
        · rw [if_pos hbrace]
          refine accepted hus (beq_iff_eq.2 hbrace) (passed hus ?_)
          obtain ⟨depth, rfl⟩ := Nat.exists_eq_add_one_of_ne_zero (show depth ≠ 0 by omega)
          rw [block]
          refine followed (blockFrom_performs hts [] hus.pass (by omega)) (fun m h => by rw [h]) ?_
          rintro ⟨body, closing⟩ after' _ s' _ h ⟨rfl, hclosing⟩ hafter
          rw [h]
          refine lookBack hclosing ?_
          exact done _ rfl hafter
        · rw [if_neg hbrace]
          refine not_accepted hus (forall_head (beq_eq_false_iff_ne.2 hbrace)) (look hus ?_)
          by_cases hreserved : t.kind.isReserved = true
          · simp only [List.head?_cons, if_pos hreserved]
            exact refused t.place (.reservedWord t.lexeme)
          · simp only [List.head?_cons, if_neg hreserved]
            exact expressionStatement_performs hts hus (by simp only [List.length_cons]; omega)
termination_by depth
decreasing_by all_goals omega

theorem blockFrom_performs (hts : Countable ts) (body : List Stmt) {s : State} {us : List Token}
    (hus : s.Before ts us) {depth : Nat} (hdepth : 20 * us.length + 19 < depth) :
    PerformsAs ts s (Completes ts body) (blockFrom ts depth body) (Grammar.blockBody (endPlace ts) us) := by
  obtain ⟨depth, rfl⟩ := Nat.exists_eq_add_one_of_ne_zero (Nat.ne_zero_of_lt hdepth)
  rw [blockFrom]
  refine look hus ?_
  cases us with
  | nil =>
      rw [Grammar.blockBody]
      exact not_consumed_end hts hus
  | cons t rest =>
      rw [Grammar.blockBody]
      by_cases hclosing : t.kind = .rightBrace
      · simp only [List.head?_cons, if_pos hclosing]
        refine consumed hus hclosing ?_
        exact done _ ⟨(List.append_nil body).symm, hus.behind.mark _⟩ hus.pass
      · simp only [List.head?_cons, if_neg hclosing]
        refine followed (declaration_performs hts hus (by omega)) (fun m h => by rw [h]) ?_
        rintro stmt after' shorter s' _ h rfl hafter
        rw [h]
        refine relayed (blockFrom_performs hts (body ++ [stmt]) hafter (by omega)) (fun m h => by simp only [h]) ?_
        rintro ⟨more, closing⟩ rest' _ s'' _ h ⟨rfl, hbehind⟩
        simp only [h]
        exact ⟨_, yields_ok.2 ⟨rfl, rfl⟩, by simp, hbehind⟩
termination_by depth
decreasing_by all_goals omega

end

/-! ### Whole lists of tokens -/

theorem programFrom_comes (hts : Countable ts) (program : List Stmt) {s : State} {us : List Token}
    (hus : s.Before ts us) {depth : Nat} (hdepth : 20 * us.length + 19 < depth) :
    (∃ m s', Grammar.statements (endPlace ts) us = .error m ∧ Misses (programFrom ts depth program) s m s' ∧
      s.Leads ts s') ∨
    ∃ more s', Grammar.statements (endPlace ts) us = .ok more ∧
      Comes (programFrom ts depth program) s (.ok (program ++ more)) s' ∧ s.Leads ts s' := by
  induction depth generalizing s us program with
  | zero => omega
  | succ depth ih =>
      rw [programFrom]
      cases us with
      | nil =>
          refine .inr ⟨[], s, by rw [Grammar.statements], ?_, .rfl⟩
          rw [List.append_nil]
          exact (comes_peek hus).bind (.pure program s)
      | cons t rest =>
          rw [Grammar.statements]
          obtain ⟨m, s', h, hmisses, hleads⟩ | ⟨stmt, after', shorter, s', _, h, hcomes, rfl, hleads, hafter⟩ :=
            declaration_performs hts hus (show _ < depth by omega)
          · refine .inl ⟨m, s', by rw [h], ?_, hleads⟩
            exact (comes_peek hus).bind hmisses.bind_error
          · simp only [h]
            obtain ⟨m, s'', hmore, hmisses, hleads'⟩ | ⟨more, s'', hmore, hcomes', hleads'⟩ :=
              ih (program ++ [stmt]) hafter (by omega)
            · refine .inl ⟨m, s'', by rw [hmore], ?_, hleads.trans hleads'⟩
              exact (comes_peek hus).bind (hcomes.bind hmisses)
            · refine .inr ⟨stmt :: more, s'', by rw [hmore], ?_, hleads.trans hleads'⟩
              rw [List.append_assoc] at hcomes'
              exact (comes_peek hus).bind (hcomes.bind hcomes')

/-- A depth that is enough for so many tokens: fewer than twenty calls and rounds are open before each of them, and as many at their end. -/
def sufficientDepth (ts : List Token) : Nat := 20 * (ts.length + 1)

theorem wholeProgram_comes (hts : Countable ts) {depth : Nat} (hdepth : sufficientDepth ts ≤ depth) :
    ∃ s, Comes (wholeProgram ts depth) .start ((parseProgram ts).mapError .fault) s ∧ s.Sound ts := by
  rw [sufficientDepth] at hdepth
  have hstart := State.start_sound ts
  rw [parseProgram]
  obtain ⟨m, s, h, hmisses, hleads⟩ | ⟨program, s, h, hcomes, hleads⟩ :=
    programFrom_comes hts [] (State.start_before ts) (show _ < depth by omega)
  · rw [h]
    exact ⟨s, hmisses, hleads.sound hstart⟩
  · rw [h]
    exact ⟨s, hcomes, hleads.sound hstart⟩

theorem wholeExpression_comes (hts : Countable ts) {depth : Nat} (hdepth : sufficientDepth ts ≤ depth) :
    ∃ s, Comes (wholeExpression ts depth) .start ((parseExpression ts).mapError .fault) s ∧ s.Sound ts := by
  rw [sufficientDepth] at hdepth
  have hstart := State.start_sound ts
  rw [parseExpression]
  obtain ⟨m, s, h, hmisses, hleads⟩ | ⟨e, rest, shorter, s, _, h, hcomes, rfl, hleads, hrest⟩ :=
    expression_performs hts (State.start_before ts) (show _ < depth by omega)
  · rw [h]
    exact ⟨s, hmisses.bind_error, hleads.sound hstart⟩
  · rw [h]
    refine ⟨s, hcomes.bind ((comes_peek hrest).bind ?_), hleads.sound hstart⟩
    cases rest with
    | nil => exact .pure e s
    | cons t rest => exact refuse_misses t.place (.trailingToken t.lexeme) s

end

/-! ### Progress -/

/-- From wherever a walk is begun, it ends: with a value further on, or with a parse fault no further back. -/
def Progresses {α : Type} (ts : List Token) (w : Walk α) : Prop :=
  ∀ s : State, s.Sound ts → ∃ r s', Comes w s r s' ∧ s'.Sound ts ∧
    match r with
    | .ok _ => s.cursor < s'.cursor
    | .error halt => s.cursor ≤ s'.cursor ∧ ∃ place message help, halt = .fault (.parse place message help)

/-- What does the work of a parser makes progress, since a parser leaves fewer tokens. -/
theorem progresses_of_performs {α : Type} {ts : List Token} {w : Walk α}
    {answer : (us : List Token) → Answer α us.length}
    (h : ∀ (s : State) (us : List Token), s.Before ts us → Performs ts s w (answer us)) : Progresses ts w := by
  intro s hs
  have hus : s.Before ts (ts.drop s.cursor) :=
    ⟨ts.take s.cursor, (List.take_append_drop _ _).symm, (List.length_take_of_le hs.inside).symm⟩
  obtain ⟨m, s', -, hmisses, hleads⟩ | ⟨value, rest, shorter, s', _, -, hcomes, rfl, hleads, hrest⟩ := h s _ hus
  · exact ⟨_, s', hmisses, hleads.sound hs, hleads.onward, m.place, m.problem.message, m.problem.help, rfl⟩
  · have hlength := hus.cursor_add
    have hlength' := hrest.cursor_add
    exact ⟨_, s', hcomes, hleads.sound hs, by simp only; omega⟩

/-- **Parsers with a cursor end.** Whatever the tokens are, as long as their offsets can be counted on, a parser that moves a cursor over them ends with what the grammar's parser answers, so it does not crash and fails with parse faults only, and it never goes deeper than so many calls and rounds for each token. All the while its cursor stays inside the tokens and never goes back, it has passed a token whenever the one before it is read, and every expression, declaration and operand that is found has tokens. These three do so from wherever they are begun, and when they fail, the cursor is no further back. -/
theorem parsers_make_progress (ts : List Token) (hts : Countable ts) (depth : Nat)
    (hdepth : sufficientDepth ts ≤ depth) :
    (∃ s, Comes (wholeProgram ts depth) .start ((parseProgram ts).mapError .fault) s ∧ s.Sound ts) ∧
    (∃ s, Comes (wholeExpression ts depth) .start ((parseExpression ts).mapError .fault) s ∧ s.Sound ts) ∧
    (∀ fault, parseProgram ts = .error fault ∨ parseExpression ts = .error fault →
      ∃ place message help, fault = .parse place message help) ∧
    Progresses ts (expression ts depth) ∧ Progresses ts (declaration ts depth) ∧
    ∀ level, Progresses ts (operand ts depth level) := by
  have henough {s : State} {us : List Token} (hus : s.Before ts us) : 20 * us.length + 19 < depth := by
    have hlength := hus.cursor_add
    rw [sufficientDepth] at hdepth
    omega
  refine ⟨wholeProgram_comes hts hdepth, wholeExpression_comes hts hdepth, ?_, ?_, ?_, fun level => ?_⟩
  · intro fault h
    obtain ⟨m, rfl, -⟩ := h.elim parseProgram_anchored parseExpression_anchored
    exact ⟨m.place, m.problem.message, m.problem.help, rfl⟩
  · refine progresses_of_performs fun s us hus => expression_performs hts hus ?_
    have := henough hus
    omega
  · refine progresses_of_performs fun s us hus => declaration_performs hts hus ?_
    have := henough hus
    omega
  · refine progresses_of_performs fun s us hus => operand_performs hts level hus ?_
    have := henough hus
    have hheight := level.height_le
    omega

/-- Tokens of a kind that no text has, at places where none could stand. -/
theorem parsers_make_progress_undefined :
    let name : Token := ⟨.identifier, "x", ⟨7, ⟨5, 3⟩⟩, none⟩
    let nothing : Token := ⟨.undefined, "?", ⟨0, ⟨9, 9⟩⟩, none⟩
    Countable [name, nothing] ∧ sufficientDepth [name, nothing] ≤ 60 ∧ ∃ s, s.Sound [name, nothing] ∧
      Comes (wholeProgram [name, nothing] 60) .start
        (.error (.fault (Misparse.fault ⟨⟨0, ⟨9, 9⟩⟩, .noExpression .undefined "?"⟩))) s := by
  intro name nothing
  have hts : Countable [name, nothing] := by decide
  have hdepth : sufficientDepth [name, nothing] ≤ 60 := by decide
  have hparse : parseProgram [name, nothing] =
      .error (Misparse.fault ⟨⟨0, ⟨9, 9⟩⟩, .noExpression .undefined "?"⟩) := by decide +kernel
  obtain ⟨⟨s, hcomes, hsound⟩, -⟩ := parsers_make_progress [name, nothing] hts 60 hdepth
  rw [hparse] at hcomes
  exact ⟨hts, hdepth, s, hsound, hcomes⟩

end Blockscript.Grammar.Cursor
