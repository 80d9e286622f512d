import Blockscript.Proofs.Grammar.Yields

/-!
# The parser of expressions follows the grammar

What a parser yields is derived from the tokens that it takes, and what is derived is yielded when the tokens behind it cannot go on with it. A parser of expressions is greedy, so behind what it takes stands neither an operator nor an equals sign.

Chains are derived from the left and parsed by a loop. In one direction the loop extends a derivation that it has already found; in the other, a derivation of the beginning of a chain says with which tokens the loop goes on.
-/

namespace Blockscript.Grammar

/-- In front stands no operator of a level below the given height. -/
def Ends (height : Nat) (rest : List Token) : Prop :=
  ∀ t ∈ rest.head?, ∀ level : Level, level.height < height → level.admits t.kind = false

/-- In front stands nothing that continues an expression. -/
structure Stops (rest : List Token) : Prop where
  operator : Ends (Level.or.height + 1) rest
  sign : ∀ t ∈ rest.head?, t.kind ≠ .assign

theorem Ends.mono {m n : Nat} {rest : List Token} (h : Ends n rest) (hle : m ≤ n) : Ends m rest :=
  fun t ht level hlt => h t ht level (Nat.lt_of_lt_of_le hlt hle)

theorem Ends.succ {level : Level} {rest : List Token} (h : Ends level.height rest)
    (hstop : ∀ t ∈ rest.head?, level.admits t.kind = false) : Ends (level.height + 1) rest := by
  intro t ht other hlt
  by_cases heq : other = level
  · rw [heq]
    exact hstop t ht
  · refine h t ht other ?_
    have hne : other.height ≠ level.height := by
      intro hheight
      apply heq
      cases other <;> cases level <;> first | rfl | exact absurd hheight (by decide)
    omega

theorem Level.height_of_tighter_none {level : Level} (h : level.tighter = none) : level.height = 1 := by
  cases level <;> first | rfl | cases h

theorem ends_one (rest : List Token) : Ends 1 rest := by
  intro t _ level hlt
  cases level <;> exact absurd hlt (by decide)

theorem Derives.eq_of_reference {stratum : Stratum} {ts : List Token} {name : Token}
    (h : Derives stratum ts (.reference name)) : ts = [name] ∧ name.kind = .identifier := by
  generalize he : Expr.reference name = e at h
  induction h with
  | assign _ _ _ _ | binary _ _ _ _ _ _ | unary _ _ _ | literal _ | grouping _ _ _ _ => cases he
  | loosest _ ih | operand _ _ ih | tightest _ ih => exact ih he
  | name kind =>
      cases he
      exact ⟨rfl, kind⟩

/-! ### What is yielded is derived -/

variable {ending : Place}

mutual

theorem assignment_derives {ts rest : List Token} {e : Expr} (h : Yields (assignment ending ts) e rest) :
    ∃ ps, ts = ps ++ rest ∧ Derives .assignment ps e ∧ Stops rest := by
  rcases assignment_yields h with ⟨hchain, hstop⟩ | ⟨name, equals, after, value, hchain, hsign, hvalue, rfl⟩
  · obtain ⟨ps, hps, hderives, hends⟩ := chain_derives hchain
    exact ⟨ps, hps, .loosest hderives, hends, hstop⟩
  · have hshorter := hchain.shorter
    obtain ⟨ps, hps, hderives, -⟩ := chain_derives hchain
    obtain ⟨rfl, htarget⟩ := hderives.eq_of_reference
    obtain ⟨qs, hqs, hright, hstop⟩ := assignment_derives hvalue
    refine ⟨name :: equals :: qs, ?_, .assign htarget hsign hright, hstop⟩
    rw [hps, hqs]
    rfl
termination_by (ts.length, 2 * Level.or.height + 4)

theorem chain_derives {level : Level} {ts rest : List Token} {e : Expr}
    (h : Yields (chain ending level ts) e rest) :
    ∃ ps, ts = ps ++ rest ∧ Derives (.chain level) ps e ∧ Ends (level.height + 1) rest := by
  obtain ⟨first, after, hoperand, hfrom⟩ := chain_yields_iff.1 h
  have hshorter := hoperand.shorter
  obtain ⟨operators, next, joins⟩ := exists_joins level
  obtain ⟨ps, hps, hfirst, hends⟩ := operand_derives joins hoperand
  obtain ⟨qs, hqs, hderives, hends'⟩ := chainFrom_derives (.operand joins hfirst) hends hfrom
  refine ⟨ps ++ qs, ?_, hderives, hends'⟩
  rw [hps, hqs, List.append_assoc]
termination_by (ts.length, 2 * level.height + 3)

theorem chainFrom_derives {level : Level} {ts rest ls : List Token} {left e : Expr}
    (hleft : Derives (.chain level) ls left) (hends : Ends level.height ts)
    (h : Yields (chainFrom ending level left ts) e rest) :
    ∃ ps, ts = ps ++ rest ∧ Derives (.chain level) (ls ++ ps) e ∧ Ends (level.height + 1) rest := by
  cases ts with
  | nil =>
      obtain ⟨rfl, rfl⟩ := chainFrom_nil_yields_iff.1 h
      exact ⟨[], rfl, by rwa [List.append_nil], hends.succ (by simp)⟩
  | cons op ts =>
      rw [chainFrom_cons_yields_iff] at h
      by_cases hop : level.admits op.kind = true
      · rw [if_pos hop] at h
        obtain ⟨-, right, after, hoperand, hfrom⟩ := h
        have hshorter := hoperand.shorter
        obtain ⟨operators, next, joins⟩ := exists_joins level
        obtain ⟨ps, hps, hright, hends'⟩ := operand_derives joins hoperand
        have hlonger := Derives.binary joins hleft ((joins.admits_iff op.kind).1 hop) hright
        obtain ⟨qs, hqs, hderives, hends''⟩ := chainFrom_derives hlonger hends' hfrom
        refine ⟨op :: ps ++ qs, ?_, ?_, hends''⟩
        · rw [hps, hqs]
          simp only [List.cons_append, List.append_assoc]
        · simpa only [List.cons_append, List.append_assoc] using hderives
      · rw [if_neg hop] at h
        obtain ⟨rfl, rfl⟩ := h
        refine ⟨[], rfl, by rwa [List.append_nil], hends.succ (forall_head ?_)⟩
        exact Bool.eq_false_iff.2 hop
termination_by (ts.length, 0)

theorem operand_derives {level : Level} {operators : List Kind} {next : Stratum} {ts rest : List Token}
    {e : Expr} (joins : Joins level operators next) (h : Yields (operand ending level ts) e rest) :
    ∃ ps, ts = ps ++ rest ∧ Derives next ps e ∧ Ends level.height rest := by
  have hnext := joins.next_eq
  rw [operand_yields_iff] at h
  cases htighter : level.tighter with
  | some tighter =>
      rw [htighter] at h hnext
      have hheight := Level.height_tighter htighter
      obtain ⟨ps, hps, hderives, hends⟩ := chain_derives h
      rw [hheight] at hends
      exact ⟨ps, hps, hnext ▸ hderives, hends⟩
  | none =>
      rw [htighter] at h hnext
      obtain ⟨ps, hps, hderives⟩ := unary_derives h
      have hheight : level.height = 1 := Level.height_of_tighter_none htighter
      exact ⟨ps, hps, hnext ▸ hderives, hheight ▸ ends_one rest⟩
termination_by (ts.length, 2 * level.height + 2)

theorem unary_derives {ts rest : List Token} {e : Expr} (h : Yields (unary ending ts) e rest) :
    ∃ ps, ts = ps ++ rest ∧ Derives .unary ps e := by
  cases ts with
  | nil => exact absurd h unary_nil_yields
  | cons t ts =>
      rw [unary_cons_yields_iff] at h
      by_cases hsign : t.kind = .not ∨ t.kind = .subtract
      · rw [if_pos hsign] at h
        obtain ⟨right, hright, rfl⟩ := h
        obtain ⟨ps, hps, hderives⟩ := unary_derives hright
        exact ⟨t :: ps, by rw [hps, List.cons_append], .unary hsign hderives⟩
      · rw [if_neg hsign] at h
        obtain ⟨ps, hps, hderives⟩ := primary_derives h
        exact ⟨ps, hps, .tightest hderives⟩
termination_by (ts.length, 1)
decreasing_by
  all_goals subst_vars
  · exact Prod.Lex.left _ _ (Nat.lt_succ_self _)
  · exact Prod.Lex.right _ Nat.zero_lt_one

theorem primary_derives {t : Token} {ts rest : List Token} {e : Expr}
    (h : Yields (primary ending t ts) e rest) :
    ∃ ps, t :: ts = ps ++ rest ∧ Derives .primary ps e := by
  rcases primary_yields h with ⟨rfl, value, hconstant, rfl⟩ | ⟨rfl, hkind, rfl⟩ | ⟨hopens, hinner⟩
  · exact ⟨[t], rfl, .literal hconstant⟩
  · exact ⟨[t], rfl, .name hkind⟩
  · obtain ⟨-, inner, closing, hassign, hcloses, rfl⟩ := parenthesised_yields_iff.1 hinner
    obtain ⟨ps, hps, hderives, -⟩ := assignment_derives hassign
    refine ⟨t :: ps ++ [closing], ?_, .grouping hopens hcloses hderives⟩
    rw [hps]
    simp only [List.cons_append, List.append_assoc, List.nil_append]
termination_by (ts.length + 1, 0)

end

/-! ### What is derived is yielded -/

theorem Level.eq_of_admits {l m : Level} {kind : Kind} (hl : l.admits kind = true)
    (hm : m.admits kind = true) : l = m := by
  cases l <;> cases kind <;> first
    | exact absurd hl Bool.false_ne_true
    | cases m <;> first | rfl | exact absurd hm Bool.false_ne_true

theorem ends_cons {height : Nat} {t : Token} {rest : List Token}
    (h : ∀ level : Level, level.height < height → level.admits t.kind = false) : Ends height (t :: rest) :=
  forall_head h

theorem stops_nil : Stops [] := by
  constructor <;> simp [Ends]

/-- Kinds that continue an expression. -/
def continues : Kind → Bool
  | .assign | .or | .equivalent | .notEqual | .greaterThan | .greaterEqual | .lessThan | .lessEqual
  | .subtract | .add | .divide | .multiply => true
  | _ => false

theorem admits_of_not_continues {kind : Kind} (h : continues kind = false) (level : Level) :
    level.admits kind = false := by
  cases kind <;> first | (cases level <;> rfl) | cases h

theorem stops_cons {t : Token} {rest : List Token} (h : continues t.kind = false) : Stops (t :: rest) := by
  refine ⟨ends_cons fun level _ => admits_of_not_continues h level, forall_head ?_⟩
  intro hsign
  rw [hsign] at h
  cases h

theorem chainFrom_of_ends {level : Level} {left : Expr} {rest : List Token} (h : Ends (level.height + 1) rest) :
    Yields (chainFrom ending level left rest) left rest := by
  cases rest with
  | nil => exact chainFrom_nil_yields_iff.2 ⟨rfl, rfl⟩
  | cons t rest =>
      have hadmits : level.admits t.kind = false := h t rfl level (Nat.lt_succ_self _)
      rw [chainFrom_cons_yields_iff, hadmits]
      exact ⟨rfl, rfl⟩

/-- What a parser must do with the tokens of an expression of its stratum. The parser of a chain goes on with the loop from there. -/
def Recovers (ending : Place) : Stratum → List Token → Expr → Prop
  | .assignment, ts, e => ∀ rest, Stops rest → Yields (assignment ending (ts ++ rest)) e rest
  | .chain level, ts, e => ∀ rest e' rest', Ends level.height rest →
      Yields (chainFrom ending level e rest) e' rest' → Yields (chain ending level (ts ++ rest)) e' rest'
  | .unary, ts, e => ∀ rest, Yields (unary ending (ts ++ rest)) e rest
  | .primary, ts, e => ∃ t after, ts = t :: after ∧ ¬(t.kind = .not ∨ t.kind = .subtract) ∧
      ∀ rest, Yields (primary ending t (after ++ rest)) e rest

namespace Recovers

variable {level : Level} {operators : List Kind} {next : Stratum} {ts : List Token} {e : Expr}

theorem yields_operand (h : Recovers ending next ts e) (joins : Joins level operators next)
    {rest : List Token} (hends : Ends level.height rest) :
    Yields (operand ending level (ts ++ rest)) e rest := by
  have hnext := joins.next_eq
  rw [operand_yields_iff]
  cases htighter : level.tighter with
  | some tighter =>
      rw [htighter] at hnext
      subst hnext
      have hheight := Level.height_tighter htighter
      rw [← hheight] at hends
      exact h rest e rest (hends.mono (Nat.le_succ _)) (chainFrom_of_ends hends)
  | none =>
      rw [htighter] at hnext
      subst hnext
      exact h rest

theorem operand (h : Recovers ending next ts e) (joins : Joins level operators next) :
    Recovers ending (.chain level) ts e := by
  intro rest e' rest' hends hfrom
  rw [chain_yields_iff]
  exact ⟨e, rest, h.yields_operand joins hends, hfrom⟩

theorem tightest (h : Recovers ending .primary ts e) : Recovers ending .unary ts e := by
  obtain ⟨t, after, rfl, hsign, hprimary⟩ := h
  intro rest
  rw [List.cons_append, unary_cons_yields_iff, if_neg hsign]
  exact hprimary rest

theorem name {t : Token} (kind : t.kind = .identifier) : Recovers ending .primary [t] (.reference t) := by
  refine ⟨t, [], rfl, by simp [kind], ?_⟩
  intro rest
  exact primary_of_identifier kind

/-- A lone name is a chain of the loosest level. -/
theorem loosest_name {t : Token} (kind : t.kind = .identifier) :
    Recovers ending (.chain .or) [t] (.reference t) :=
  ((((((Recovers.name kind).tightest.operand .factor).operand .term).operand .comparison).operand
    .equality).operand .or)

theorem binary {ls rs : List Token} {op : Token} {l r : Expr} (joins : Joins level operators next)
    (hleft : Recovers ending (.chain level) ls l) (hop : op.kind ∈ operators) (hderives : Derives next rs r)
    (hright : Recovers ending next rs r) :
    Recovers ending (.chain level) (ls ++ op :: rs) (.ofBinary l op r) := by
  intro rest e' rest' hends hfrom
  have hadmits : level.admits op.kind = true := (joins.admits_iff op.kind).2 hop
  rw [List.append_assoc, List.cons_append]
  apply hleft
  · refine ends_cons fun other hlt => Bool.eq_false_iff.2 fun hother => ?_
    rw [Level.eq_of_admits hother hadmits] at hlt
    exact Nat.lt_irrefl _ hlt
  · rw [chainFrom_cons_yields_iff, if_pos hadmits]
    exact ⟨hderives.beginsExpression rest, r, rest, hright.yields_operand joins hends, hfrom⟩

theorem assign {name equals : Token} {value : Expr} (target : name.kind = .identifier)
    (sign : equals.kind = .assign) (hright : Recovers ending .assignment ts value) :
    Recovers ending .assignment (name :: equals :: ts) (.ofAssign name value) := by
  intro rest hstop
  have hends : Ends (Level.or.height + 1) (equals :: (ts ++ rest)) := by
    refine ends_cons fun level _ => ?_
    rw [sign]
    cases level <;> rfl
  have hname : Yields (chain ending .or (name :: equals :: (ts ++ rest))) (.reference name)
      (equals :: (ts ++ rest)) :=
    Recovers.loosest_name target _ _ _ (hends.mono (Nat.le_succ _)) (chainFrom_of_ends hends)
  exact assignment_of_assign hname sign (hright rest hstop)

theorem grouping {opening closing : Token} (opens : opening.kind = .leftParen)
    (closes : closing.kind = .rightParen) (hderives : Derives .assignment ts e)
    (hinner : Recovers ending .assignment ts e) :
    Recovers ending .primary (opening :: ts ++ [closing])
      (.grouping e (opening.span.through closing.span)) := by
  refine ⟨opening, ts ++ [closing], rfl, by simp [opens], ?_⟩
  intro rest
  rw [List.append_assoc, primary_of_leftParen opens, parenthesised_yields_iff]
  constructor
  · intro t ht
    exact ne_of_startsExpression (hderives.begins _ t ht) rfl
  · refine ⟨e, closing, hinner _ (stops_cons ?_), closes, rfl⟩
    rw [closes]
    rfl

end Recovers

theorem Derives.recovers {stratum : Stratum} {ts : List Token} {e : Expr} (h : Derives stratum ts e) :
    Recovers ending stratum ts e := by
  induction h with
  | assign target sign _ ih => exact ih.assign target sign
  | loosest _ ih =>
      intro rest hstop
      refine assignment_of_chain ?_ hstop.sign
      exact ih _ _ _ (hstop.operator.mono (Nat.le_succ _)) (chainFrom_of_ends hstop.operator)
  | operand joins _ ih => exact ih.operand joins
  | binary joins _ sign right ihleft ihright => exact .binary joins ihleft sign right ihright
  | unary sign _ ih =>
      intro rest
      rw [List.cons_append, unary_cons_yields_iff, if_pos sign]
      exact ⟨_, ih rest, rfl⟩
  | tightest _ ih => exact ih.tightest
  | literal constant =>
      have hsign : ∀ kind ∈ [Kind.trueWord, .falseWord, .nullWord, .number, .string],
          ¬(kind = .not ∨ kind = .subtract) := by decide
      exact ⟨_, [], rfl, hsign _ constant.kind_mem, fun rest => primary_of_constant constant⟩
  | name kind => exact .name kind
  | grouping opens closes inner ih => exact .grouping opens closes inner ih

theorem assignment_yields_iff {ts rest : List Token} {e : Expr} : Yields (assignment ending ts) e rest ↔
    ∃ ps, ts = ps ++ rest ∧ Derives .assignment ps e ∧ Stops rest := by
  constructor
  · intro h
    exact assignment_derives h
  · rintro ⟨ps, rfl, hderives, hstop⟩
    have hrecovers : Recovers ending .assignment ps e := hderives.recovers
    exact hrecovers rest hstop

end Blockscript.Grammar

namespace Blockscript

open Grammar

theorem parseExpression_eq_ok_iff {ts : List Token} {e : Expr} :
    parseExpression ts = .ok e ↔ Yields (assignment (endPlace ts) ts) e [] := by
  rw [parseExpression]
  cases hassign : assignment (endPlace ts) ts with
  | error m => simp
  | ok p =>
      obtain ⟨value, rest, hshorter⟩ := p
      cases rest with
      | nil => simp [eq_comm]
      | cons t rest => simp

theorem parseExpression_ok_iff {ts : List Token} {e : Expr} :
    parseExpression ts = .ok e ↔ Derives .assignment ts e := by
  rw [parseExpression_eq_ok_iff, assignment_yields_iff]
  constructor
  · rintro ⟨ps, rfl, hderives, -⟩
    rwa [List.append_nil]
  · intro h
    exact ⟨ts, (List.append_nil ts).symm, h, stops_nil⟩

theorem Grammar.Derives.unique {ts : List Token} {e e' : Expr} (h : Derives .assignment ts e)
    (h' : Derives .assignment ts e') : e = e' := by
  rw [← parseExpression_ok_iff] at h h'
  rw [h] at h'
  exact Except.ok.inj h'

/-- **Expressions are parsed by the grammar.** Tokens are accepted with a tree exactly if the tree is derived from all of them. No tokens have two trees, and nothing that is derived begins in a way that the look behind an operator refuses. -/
theorem parseExpression_accepts_grammar (ts : List Token) (e : Expr) :
    (parseExpression ts = .ok e ↔ Derives .assignment ts e) ∧
    (∀ e', Derives .assignment ts e → Derives .assignment ts e' → e = e') ∧
    (∀ stratum rest, Derives stratum ts e → beginsExpression (ts ++ rest) = true) := by
  refine ⟨parseExpression_ok_iff, ?_, ?_⟩
  · intro e' h h'
    exact h.unique h'
  · intro stratum rest h
    exact h.beginsExpression rest

theorem parseExpression_groups_left :
    let a : Token := ⟨.identifier, "a", ⟨1, ⟨0, 1⟩⟩, none⟩
    let equals : Token := ⟨.assign, "=", ⟨1, ⟨2, 3⟩⟩, none⟩
    let b : Token := ⟨.identifier, "b", ⟨1, ⟨4, 5⟩⟩, none⟩
    let minus : Token := ⟨.subtract, "-", ⟨1, ⟨6, 7⟩⟩, none⟩
    let c : Token := ⟨.identifier, "c", ⟨1, ⟨8, 9⟩⟩, none⟩
    parseExpression [a, equals, b, minus, c, minus, b] = .ok
      (.ofAssign a (.ofBinary (.ofBinary (.reference b) minus (.reference c)) minus (.reference b))) := by
  intro a equals b minus c
  have hname : ∀ t : Token, t.kind = .identifier → Derives (.chain .factor) [t] (.reference t) :=
    fun t kind => .operand .factor (.tightest (.name kind))
  have hminus : minus.kind ∈ [Kind.subtract, Kind.add] := by decide
  have hfirst := Derives.binary .term (.operand .term (hname b rfl)) hminus (hname c rfl)
  have hterm := Derives.binary .term hfirst hminus (hname b rfl)
  refine (parseExpression_accepts_grammar _ _).1.2 (.assign rfl rfl (.loosest ?_))
  exact .operand .or (.operand .equality (.operand .comparison hterm))

end Blockscript
