import Blockscript.Proofs.Grammar.Derivation

/-!
# What the parsers yield

The answer of a parser carries a bound on the tokens that are left. For proofs it is enough to know which value the parser yields and which tokens it leaves. Each parser of expressions has one equivalence here, which says this in terms of the parsers that it calls; nothing else opens their definitions.
-/

namespace Blockscript.Grammar

/-- A parser succeeds with a value and leaves the given tokens. -/
def Yields {α : Type} {n : Nat} (answer : Answer α n) (value : α) (rest : List Token) : Prop :=
  ∃ shorter, answer = .ok ⟨value, rest, shorter⟩

section

variable {α : Type} {n : Nat} {value : α} {rest : List Token}

theorem Yields.shorter {answer : Answer α n} (h : Yields answer value rest) : rest.length < n :=
  h.1

theorem Yields.unique {answer : Answer α n} {value' : α} {rest' : List Token}
    (h : Yields answer value rest) (h' : Yields answer value' rest') : value = value' ∧ rest = rest' := by
  obtain ⟨_, h⟩ := h
  obtain ⟨_, h'⟩ := h'
  rw [h] at h'
  cases h'
  exact ⟨rfl, rfl⟩

@[simp] theorem not_yields_error {m : Misparse} : ¬Yields (.error m : Answer α n) value rest := by
  rintro ⟨_, h⟩
  cases h

@[simp] theorem yields_ok {p : Parsed α n} :
    Yields (.ok p : Answer α n) value rest ↔ value = p.value ∧ rest = p.rest := by
  obtain ⟨value', rest', shorter⟩ := p
  constructor
  · rintro ⟨_, h⟩
    cases h
    exact ⟨rfl, rfl⟩
  · rintro ⟨rfl, rfl⟩
    exact ⟨shorter, rfl⟩

end

variable {ending : Place} {level : Level} {left e : Expr} {t : Token} {ts rest : List Token}

/-! ### Assignments and chains -/

theorem assignment_of_chain (h : Yields (chain ending .or ts) e rest)
    (hstop : ∀ t ∈ rest.head?, t.kind ≠ .assign) : Yields (assignment ending ts) e rest := by
  obtain ⟨hshorter, hchain⟩ := h
  rw [assignment, hchain]
  cases rest with
  | nil => exact ⟨_, rfl⟩
  | cons t after =>
      have hkind : t.kind ≠ .assign := hstop t rfl
      simp only [if_neg hkind]
      exact ⟨_, rfl⟩

theorem assignment_of_assign {name equals : Token} {after : List Token} {value : Expr}
    (h : Yields (chain ending .or ts) (.reference name) (equals :: after)) (hkind : equals.kind = .assign)
    (hvalue : Yields (assignment ending after) value rest) :
    Yields (assignment ending ts) (.ofAssign name value) rest := by
  obtain ⟨hshorter, hchain⟩ := h
  obtain ⟨hshorter', hassign⟩ := hvalue
  rw [assignment, hchain]
  simp only [if_pos hkind, hassign]
  exact ⟨_, rfl⟩

theorem assignment_yields (h : Yields (assignment ending ts) e rest) :
    (Yields (chain ending .or ts) e rest ∧ ∀ t ∈ rest.head?, t.kind ≠ .assign) ∨
    ∃ name equals after value, Yields (chain ending .or ts) (.reference name) (equals :: after) ∧
      equals.kind = .assign ∧ Yields (assignment ending after) value rest ∧ e = .ofAssign name value := by
  rw [assignment] at h
  cases hchain : chain ending .or ts with
  | error m => simp [hchain] at h
  | ok p =>
      obtain ⟨left, after, hshorter⟩ := p
      rw [hchain] at h
      cases after with
      | nil =>
          obtain ⟨rfl, rfl⟩ := yields_ok.1 h
          exact .inl ⟨⟨_, rfl⟩, by simp⟩
      | cons t after =>
          by_cases hkind : t.kind = .assign
          · simp only [if_pos hkind] at h
            cases hassign : assignment ending after with
            | error m => simp [hassign] at h
            | ok q =>
                rw [hassign] at h
                cases left with
                | reference name =>
                    obtain ⟨rfl, rfl⟩ := yields_ok.1 h
                    exact .inr ⟨name, t, after, q.value, ⟨_, rfl⟩, hkind, hassign ▸ ⟨_, rfl⟩, rfl⟩
                | _ => simp at h
          · simp only [if_neg hkind] at h
            obtain ⟨rfl, rfl⟩ := yields_ok.1 h
            exact .inl ⟨⟨_, rfl⟩, forall_head hkind⟩

theorem chain_yields_iff :
    Yields (chain ending level ts) e rest ↔ ∃ first after,
      Yields (operand ending level ts) first after ∧ Yields (chainFrom ending level first after) e rest := by
  rw [chain]
  cases hoperand : operand ending level ts with
  | error m => simp
  | ok p =>
      simp only [yields_ok, and_assoc, exists_and_left, exists_eq_left]
      cases hfrom : chainFrom ending level p.value p.rest with
      | error m => simp
      | ok q => simp

theorem chainFrom_nil_yields_iff : Yields (chainFrom ending level left []) e rest ↔ e = left ∧ rest = [] := by
  rw [chainFrom]
  exact yields_ok

theorem chainFrom_cons_yields_iff {op : Token} :
    Yields (chainFrom ending level left (op :: ts)) e rest ↔
      if level.admits op.kind then beginsExpression ts = true ∧ ∃ right after,
        Yields (operand ending level ts) right after ∧
        Yields (chainFrom ending level (.ofBinary left op right) after) e rest
      else e = left ∧ rest = op :: ts := by
  rw [chainFrom]
  by_cases hop : level.admits op.kind = true
  · simp only [if_pos hop]
    by_cases hbegins : beginsExpression ts = true
    · simp only [hbegins, true_and]
      cases hoperand : operand ending level ts with
      | error m => simp
      | ok p =>
          simp only [yields_ok, and_assoc, exists_and_left, exists_eq_left]
          cases hfrom : chainFrom ending level (.ofBinary left op p.value) p.rest with
          | error m => simp
          | ok q => simp
    · simp [hbegins]
  · simp [hop]

theorem operand_yields_iff : Yields (operand ending level ts) e rest ↔
    match level.tighter with
    | some next => Yields (chain ending next ts) e rest
    | none => Yields (unary ending ts) e rest := by
  cases level <;> rw [operand] <;> rfl

theorem unary_nil_yields : ¬Yields (unary ending []) e rest := by
  rw [unary]
  exact not_yields_error

theorem unary_cons_yields_iff :
    Yields (unary ending (t :: ts)) e rest ↔
      if t.kind = .not ∨ t.kind = .subtract then
        ∃ right, Yields (unary ending ts) right rest ∧ e = .ofUnary t right
      else Yields (primary ending t ts) e rest := by
  rw [unary]
  by_cases hop : t.kind = .not ∨ t.kind = .subtract
  · simp only [if_pos hop]
    cases hunary : unary ending ts with
    | error m => simp
    | ok p =>
        simp only [yields_ok, and_assoc, exists_eq_left]
        exact and_comm
  · simp only [if_neg hop]

/-! ### Primary expressions -/

theorem parenthesised_yields_iff {opening : Token} :
    Yields (parenthesised ending opening ts) e rest ↔
      (∀ t ∈ ts.head?, t.kind ≠ .rightParen) ∧ ∃ inner closing,
        Yields (assignment ending ts) inner (closing :: rest) ∧ closing.kind = .rightParen ∧
        e = .grouping inner (opening.span.through closing.span) := by
  cases ts with
  | nil =>
      rw [parenthesised]
      constructor
      · intro h
        exact absurd h not_yields_error
      · rintro ⟨-, inner, closing, h, -⟩
        exact absurd h.shorter (Nat.not_lt_zero _)
  | cons t ts =>
      rw [parenthesised]
      by_cases hempty : t.kind = .rightParen
      · simp [hempty]
      · simp only [if_neg hempty]
        cases hassign : assignment ending (t :: ts) with
        | error m => simp
        | ok p =>
            obtain ⟨inner, after, hshorter⟩ := p
            cases after with
            | nil => simp
            | cons closing after =>
                by_cases hclosing : closing.kind = .rightParen
                · simp only [if_pos hclosing, yields_ok, Parsed.value_widen, Parsed.rest_widen,
                    Parsed.value_past, Parsed.rest_past, List.cons.injEq]
                  constructor
                  · rintro ⟨rfl, rfl⟩
                    exact ⟨forall_head hempty, inner, closing, ⟨rfl, rfl, rfl⟩, hclosing, rfl⟩
                  · rintro ⟨-, _, _, ⟨rfl, rfl, rfl⟩, -, rfl⟩
                    exact ⟨rfl, rfl⟩
                · simp only [if_neg hclosing, not_yields_error, yields_ok, List.cons.injEq, false_iff]
                  rintro ⟨-, _, _, ⟨-, rfl, -⟩, hclosing', -⟩
                  exact hclosing hclosing'

theorem primary_of_constant {value : Value} (h : Constant t value) :
    Yields (primary ending t ts) (.literal value t.span) ts := by
  rw [primary]
  cases h with
  | trueWord kind | falseWord kind | nullWord kind =>
      rw [kind]
      exact ⟨_, rfl⟩
  | number kind literal | string kind literal =>
      rw [kind]
      simp only [literal]
      exact ⟨_, rfl⟩

theorem primary_of_identifier (kind : t.kind = .identifier) :
    Yields (primary ending t ts) (.reference t) ts := by
  rw [primary, kind]
  exact ⟨_, rfl⟩

theorem primary_of_leftParen (kind : t.kind = .leftParen) :
    primary ending t ts = parenthesised ending t ts := by
  rw [primary, kind]

theorem primary_yields (h : Yields (primary ending t ts) e rest) :
    (rest = ts ∧ ∃ value, Constant t value ∧ e = .literal value t.span) ∨
    (rest = ts ∧ t.kind = .identifier ∧ e = .reference t) ∨
    (t.kind = .leftParen ∧ Yields (parenthesised ending t ts) e rest) := by
  rw [primary] at h
  cases hkind : t.kind with
  | falseWord =>
      rw [hkind] at h
      obtain ⟨rfl, rfl⟩ := yields_ok.1 h
      exact .inl ⟨rfl, _, .falseWord hkind, rfl⟩
  | trueWord =>
      rw [hkind] at h
      obtain ⟨rfl, rfl⟩ := yields_ok.1 h
      exact .inl ⟨rfl, _, .trueWord hkind, rfl⟩
  | nullWord =>
      rw [hkind] at h
      obtain ⟨rfl, rfl⟩ := yields_ok.1 h
      exact .inl ⟨rfl, _, .nullWord hkind, rfl⟩
  | number =>
      rw [hkind] at h
      cases hliteral : t.literal with
      | none => simp [hliteral] at h
      | some value =>
          simp only [hliteral] at h
          obtain ⟨rfl, rfl⟩ := yields_ok.1 h
          exact .inl ⟨rfl, _, .number hkind hliteral, rfl⟩
  | string =>
      rw [hkind] at h
      cases hliteral : t.literal with
      | none => simp [hliteral] at h
      | some value =>
          simp only [hliteral] at h
          obtain ⟨rfl, rfl⟩ := yields_ok.1 h
          exact .inl ⟨rfl, _, .string hkind hliteral, rfl⟩
  | identifier =>
      rw [hkind] at h
      obtain ⟨rfl, rfl⟩ := yields_ok.1 h
      exact .inr (.inl ⟨rfl, rfl, rfl⟩)
  | leftParen =>
      rw [hkind] at h
      exact .inr (.inr ⟨rfl, h⟩)
  | _ =>
      rw [hkind] at h
      exact absurd h not_yields_error

end Blockscript.Grammar
