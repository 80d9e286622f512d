import Blockscript.Grammar.Statement
import Blockscript.Proofs.Grammar.Expressions
import Blockscript.Proofs.Grammar.Segments

/-!
# What the parsers of statements yield

As for expressions, each parser has an equivalence that says what it yields. The body of a block and the whole program are parsed by the same loop, one statement after another, up to a closing brace or to the end; `Reads` is this loop.
-/

namespace Blockscript.Grammar

variable {ending : Place} {opening name t : Token} {initializer : Option Expr} {s : Stmt}
  {ts rest : List Token}

/-! ### Single statements -/

theorem declarationEnd_yields_iff :
    Yields (declarationEnd ending opening name initializer ts) s rest ↔ ∃ closing,
      ts = closing :: rest ∧ closing.kind = .semicolon ∧
      s = .var name initializer (opening.span.through closing.span) := by
  cases ts with
  | nil => simp [declarationEnd]
  | cons t ts =>
      rw [declarationEnd]
      by_cases hkind : t.kind = .semicolon
      · simp only [if_pos hkind, yields_ok]
        constructor
        · rintro ⟨rfl, rfl⟩
          exact ⟨t, rfl, hkind, rfl⟩
        · rintro ⟨closing, hts, -, rfl⟩
          obtain ⟨rfl, rfl⟩ := List.cons.inj hts
          exact ⟨rfl, rfl⟩
      · simp only [if_neg hkind, not_yields_error, false_iff]
        rintro ⟨closing, hts, hclosing, -⟩
        obtain ⟨rfl, -⟩ := List.cons.inj hts
        exact hkind hclosing

theorem stops_semicolon {closing : Token} (h : closing.kind = .semicolon) : Stops (closing :: rest) := by
  refine stops_cons ?_
  rw [h]
  rfl

theorem declarationValue_assign_yields_iff (hkind : t.kind = .assign) :
    Yields (declarationValue ending opening name (t :: ts)) s rest ↔ ∃ value after,
      Yields (assignment ending ts) value after ∧
      Yields (declarationEnd ending opening name (some value) after) s rest := by
  rw [declarationValue, if_pos hkind]
  cases hassign : assignment ending ts with
  | error m => simp
  | ok p =>
      simp only [yields_ok, and_assoc, exists_and_left, exists_eq_left]
      cases hend : declarationEnd ending opening name (some p.value) p.rest with
      | error m => simp
      | ok q => simp

theorem declarationValue_of_ne (h : ∀ t ∈ ts.head?, t.kind ≠ .assign) :
    declarationValue ending opening name ts = declarationEnd ending opening name none ts := by
  cases ts with
  | nil => rw [declarationValue]
  | cons t ts => rw [declarationValue, if_neg (h t rfl)]

theorem declarationValue_yields_iff :
    Yields (declarationValue ending opening name ts) s rest ↔ ∃ ps initializer closing,
      ts = ps ++ closing :: rest ∧ Initializer ps initializer ∧ closing.kind = .semicolon ∧
      s = .var name initializer (opening.span.through closing.span) := by
  constructor
  · intro h
    by_cases hassign : ∃ equals after, ts = equals :: after ∧ equals.kind = .assign
    · obtain ⟨equals, after, rfl, hkind⟩ := hassign
      obtain ⟨value, after', hvalue, hend⟩ := (declarationValue_assign_yields_iff hkind).1 h
      obtain ⟨ps, rfl, hderives, -⟩ := assignment_yields_iff.1 hvalue
      obtain ⟨closing, rfl, hcloses, rfl⟩ := declarationEnd_yields_iff.1 hend
      exact ⟨equals :: ps, some value, closing, rfl, .present hkind hderives, hcloses, rfl⟩
    · have hne : ∀ t ∈ ts.head?, t.kind ≠ .assign := by
        intro t ht hkind
        obtain ⟨after, rfl⟩ := List.head?_eq_some_iff.1 ht
        exact hassign ⟨t, after, rfl, hkind⟩
      rw [declarationValue_of_ne hne] at h
      obtain ⟨closing, rfl, hcloses, rfl⟩ := declarationEnd_yields_iff.1 h
      exact ⟨[], none, closing, rfl, .absent, hcloses, rfl⟩
  · rintro ⟨ps, initializer, closing, rfl, hvalue, hcloses, rfl⟩
    cases hvalue with
    | absent =>
        rw [List.nil_append, declarationValue_of_ne (by simp [hcloses])]
        exact declarationEnd_yields_iff.2 ⟨closing, rfl, hcloses, rfl⟩
    | @present equals ps value sign right =>
        refine (declarationValue_assign_yields_iff sign).2 ⟨value, closing :: rest, ?_, ?_⟩
        · exact assignment_yields_iff.2 ⟨ps, rfl, right, stops_semicolon hcloses⟩
        · exact declarationEnd_yields_iff.2 ⟨closing, rfl, hcloses, rfl⟩

theorem declaration_yields_iff :
    Yields (declaration ending opening ts) s rest ↔ ∃ name after,
      ts = name :: after ∧ name.kind = .identifier ∧
      Yields (declarationValue ending opening name after) s rest := by
  cases ts with
  | nil => simp [declaration]
  | cons t ts =>
      rw [declaration]
      by_cases hkind : t.kind = .identifier
      · simp only [if_pos hkind]
        cases hvalue : declarationValue ending opening t ts with
        | error m => simp [hvalue]
        | ok p => simp [hvalue, hkind]
      · simp only [if_neg hkind, not_yields_error, false_iff]
        rintro ⟨name, after, hts, hname, -⟩
        obtain ⟨rfl, -⟩ := List.cons.inj hts
        exact hkind hname

theorem expressionStatement_yields_iff :
    Yields (expressionStatement ending ts) s rest ↔ ∃ e after, Yields (assignment ending ts) e after ∧
      ((∃ closing, after = closing :: rest ∧ closing.kind = .semicolon ∧
          s = .expression e (e.span.through closing.span)) ∨
        (after = rest ∧ (∀ t ∈ rest.head?, t.kind ≠ .semicolon) ∧ s = .expression e e.span)) := by
  rw [expressionStatement]
  cases hassign : assignment ending ts with
  | error m => simp
  | ok p =>
      obtain ⟨e, after, hshorter⟩ := p
      simp only [yields_ok, and_assoc, exists_and_left, exists_eq_left]
      cases after with
      | nil =>
          simp only [yields_ok]
          constructor
          · rintro ⟨rfl, rfl⟩
            exact .inr ⟨rfl, by simp, rfl⟩
          · rintro (⟨closing, hts, -⟩ | ⟨rfl, -, rfl⟩)
            · cases hts
            · exact ⟨rfl, rfl⟩
      | cons t after =>
          by_cases hkind : t.kind = .semicolon
          · simp only [if_pos hkind, yields_ok, Parsed.value_past, Parsed.rest_past]
            constructor
            · rintro ⟨rfl, rfl⟩
              exact .inl ⟨t, rfl, hkind, rfl⟩
            · rintro (⟨closing, hts, -, rfl⟩ | ⟨rfl, hstop, -⟩)
              · obtain ⟨rfl, rfl⟩ := List.cons.inj hts
                exact ⟨rfl, rfl⟩
              · exact absurd hkind (hstop t rfl)
          · simp only [if_neg hkind, yields_ok]
            constructor
            · rintro ⟨rfl, rfl⟩
              exact .inr ⟨rfl, forall_head hkind, rfl⟩
            · rintro (⟨closing, hts, hcloses, -⟩ | ⟨rfl, -, rfl⟩)
              · obtain ⟨rfl, rfl⟩ := List.cons.inj hts
                exact absurd hcloses hkind
              · exact ⟨rfl, rfl⟩

theorem statement_nil_yields : ¬Yields (statement ending []) s rest := by
  intro h
  exact absurd h.shorter (Nat.not_lt_zero _)

theorem statement_cons_yields_iff :
    Yields (statement ending (t :: ts)) s rest ↔
      if t.kind = .varWord then Yields (declaration ending t ts) s rest
      else if t.kind = .leftBrace then ∃ body closing,
        Yields (blockBody ending ts) (body, closing) rest ∧ s = .block body (t.span.through closing.span)
      else t.kind.isReserved = false ∧ Yields (expressionStatement ending (t :: ts)) s rest := by
  rw [statement]
  by_cases hvar : t.kind = .varWord
  · simp only [if_pos hvar]
  · by_cases hbrace : t.kind = .leftBrace
    · simp only [if_neg hvar, if_pos hbrace]
      cases hbody : blockBody ending ts with
      | error m => simp
      | ok p =>
          obtain ⟨⟨body, closing⟩, after, hshorter⟩ := p
          simp only [yields_ok, Prod.mk.injEq]
          constructor
          · rintro ⟨rfl, rfl⟩
            exact ⟨body, closing, ⟨⟨rfl, rfl⟩, rfl⟩, rfl⟩
          · rintro ⟨_, _, ⟨⟨rfl, rfl⟩, rfl⟩, rfl⟩
            exact ⟨rfl, rfl⟩
    · simp only [if_neg hvar, if_neg hbrace]
      by_cases hreserved : t.kind.isReserved = true
      · simp [hreserved]
      · simp [hreserved]

theorem statement_ne_rightBrace (h : Yields (statement ending (t :: ts)) s rest) : t.kind ≠ .rightBrace := by
  intro hkind
  rw [statement_cons_yields_iff, if_neg (by simp [hkind]), if_neg (by simp [hkind])] at h
  obtain ⟨e, after, hassign, -⟩ := expressionStatement_yields_iff.1 h.2
  obtain ⟨ps, hps, hderives, -⟩ := assignment_yields_iff.1 hassign
  have hbegins := hderives.begins after
  rw [← hps] at hbegins
  exact ne_of_startsExpression (hbegins t rfl) rfl hkind

/-! ### One statement after another -/

/-- Statements are parsed one after another until the given tokens are left. -/
inductive Reads (ending : Place) : List Token → List Stmt → List Token → Prop
  | done {ts : List Token} : Reads ending ts [] ts
  | next {ts after rest : List Token} {s : Stmt} {more : List Stmt}
      (first : Yields (statement ending ts) s after) (others : Reads ending after more rest) :
      Reads ending ts (s :: more) rest

theorem blockBody_cons_yields_iff {body : List Stmt} {closing : Token} :
    Yields (blockBody ending (t :: ts)) (body, closing) rest ↔
      if t.kind = .rightBrace then body = [] ∧ closing = t ∧ rest = ts
      else ∃ s after more, Yields (statement ending (t :: ts)) s after ∧
        Yields (blockBody ending after) (more, closing) rest ∧ body = s :: more := by
  rw [blockBody]
  by_cases hkind : t.kind = .rightBrace
  · simp only [if_pos hkind, yields_ok, Prod.mk.injEq, and_assoc]
  · simp only [if_neg hkind]
    cases hfirst : statement ending (t :: ts) with
    | error m => simp
    | ok p =>
        simp only [yields_ok, and_assoc, exists_and_left, exists_eq_left]
        cases hbody : blockBody ending p.rest with
        | error m => simp
        | ok q =>
            obtain ⟨⟨more, last⟩, after, hshorter⟩ := q
            simp only [yields_ok, Prod.mk.injEq]
            constructor
            · rintro ⟨⟨rfl, rfl⟩, rfl⟩
              exact ⟨more, ⟨⟨rfl, rfl⟩, rfl⟩, rfl⟩
            · rintro ⟨_, ⟨⟨rfl, rfl⟩, rfl⟩, rfl⟩
              exact ⟨⟨rfl, rfl⟩, rfl⟩

theorem blockBody_reads {ts rest : List Token} {body : List Stmt} {closing : Token}
    (h : Yields (blockBody ending ts) (body, closing) rest) :
    closing.kind = .rightBrace ∧ Reads ending ts body (closing :: rest) := by
  cases ts with
  | nil => exact absurd h.shorter (Nat.not_lt_zero _)
  | cons t ts =>
      rw [blockBody_cons_yields_iff] at h
      by_cases hkind : t.kind = .rightBrace
      · rw [if_pos hkind] at h
        obtain ⟨rfl, rfl, rfl⟩ := h
        exact ⟨hkind, .done⟩
      · rw [if_neg hkind] at h
        obtain ⟨s, after, more, hfirst, hbody, rfl⟩ := h
        have hshorter := hfirst.shorter
        obtain ⟨hcloses, hreads⟩ := blockBody_reads hbody
        exact ⟨hcloses, .next hfirst hreads⟩
termination_by ts.length

theorem Reads.blockBody {body : List Stmt} {closing : Token} (hcloses : closing.kind = .rightBrace)
    (h : Reads ending ts body (closing :: rest)) : Yields (blockBody ending ts) (body, closing) rest := by
  generalize hend : closing :: rest = tail at h
  induction h with
  | done =>
      subst hend
      rw [blockBody_cons_yields_iff, if_pos hcloses]
      exact ⟨rfl, rfl, rfl⟩
  | @next ts after _ s more first _ ih =>
      cases ts with
      | nil => exact absurd first statement_nil_yields
      | cons t ts =>
          rw [blockBody_cons_yields_iff, if_neg (statement_ne_rightBrace first)]
          exact ⟨s, after, more, first, ih hend, rfl⟩

theorem statements_cons_eq_ok_iff {p : List Stmt} : statements ending (t :: ts) = .ok p ↔
    ∃ s after more, Yields (statement ending (t :: ts)) s after ∧ statements ending after = .ok more ∧
      p = s :: more := by
  rw [statements]
  cases hfirst : statement ending (t :: ts) with
  | error m => simp
  | ok q =>
      simp only [yields_ok, and_assoc, exists_and_left, exists_eq_left]
      cases hmore : statements ending q.rest with
      | error m => simp
      | ok more => simp [eq_comm]

theorem statements_reads {ts : List Token} {p : List Stmt} (h : statements ending ts = .ok p) :
    Reads ending ts p [] := by
  cases ts with
  | nil =>
      rw [statements] at h
      cases h
      exact .done
  | cons t ts =>
      obtain ⟨s, after, more, hfirst, hmore, rfl⟩ := statements_cons_eq_ok_iff.1 h
      have hshorter := hfirst.shorter
      exact .next hfirst (statements_reads hmore)
termination_by ts.length

theorem Reads.statements {p : List Stmt} (h : Reads ending ts p []) : statements ending ts = .ok p := by
  generalize hend : ([] : List Token) = tail at h
  induction h with
  | done =>
      subst hend
      rw [Grammar.statements]
  | @next ts after _ s more first _ ih =>
      cases ts with
      | nil => exact absurd first statement_nil_yields
      | cons t ts => exact statements_cons_eq_ok_iff.2 ⟨s, after, more, first, ih hend, rfl⟩

end Blockscript.Grammar
