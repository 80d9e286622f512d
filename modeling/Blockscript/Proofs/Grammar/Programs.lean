import Blockscript.Proofs.Grammar.Punctuation
import Blockscript.Proofs.Grammar.Statements

/-!
# The parser of programs follows the grammar

A run of the parser cuts its tokens into segments, and segments are read back as they were. Behind an expression without a semicolon stands nothing that continues it: a statement begins with a token that no expression goes on with, unless it begins with a minus sign, and then the grammar does not let it follow.
-/

namespace Blockscript.Grammar

variable {ending : Place} {opening name t : Token} {initializer : Option Expr} {s : Stmt}
  {ts rest : List Token}

/-! ### What is read has segments -/

theorem Stops.ne_subtract (h : Stops rest) : ∀ t ∈ rest.head?, t.kind ≠ .subtract := by
  intro t ht hkind
  have hadmits := h.operator t ht .term (by decide)
  rw [hkind] at hadmits
  cases hadmits

/-- The tokens in front of the rest are a segment of the statement, whatever segments the rest begins with. -/
def Cuts (ts : List Token) (s : Stmt) (rest : List Token) : Prop :=
  ∃ ps, ts = ps ++ rest ∧ ∀ segments more tail, rest = segments.flatten ++ tail → Segments segments more →
    Segments (ps :: segments) (s :: more)

theorem expressionStatement_cuts (h : Yields (expressionStatement ending ts) s rest) : Cuts ts s rest := by
  obtain ⟨e, after, hassign, hcases⟩ := expressionStatement_yields_iff.1 h
  obtain ⟨ps, rfl, hderives, hstop⟩ := assignment_yields_iff.1 hassign
  rcases hcases with ⟨closing, rfl, hcloses, rfl⟩ | ⟨rfl, -, rfl⟩
  · refine ⟨ps ++ [closing], by simp, ?_⟩
    intro segments more tail _ hothers
    rw [hderives.span_closed]
    exact .closed hderives hcloses hothers
  · refine ⟨ps, rfl, ?_⟩
    intro segments more tail hafter hothers
    rw [hderives.span_eq]
    refine .bare hderives ?_ hothers
    intro t ht
    apply hstop.ne_subtract
    rw [hafter]
    exact List.mem_head?_append_of_mem_head? ht

mutual

theorem statement_cuts {ts rest : List Token} {s : Stmt} (h : Yields (statement ending ts) s rest) :
    Cuts ts s rest := by
  cases ts with
  | nil => exact absurd h statement_nil_yields
  | cons t ts =>
      rw [statement_cons_yields_iff] at h
      by_cases hvar : t.kind = .varWord
      · rw [if_pos hvar] at h
        obtain ⟨name, after, rfl, hname, hvalue⟩ := declaration_yields_iff.1 h
        obtain ⟨ps, initializer, closing, rfl, hinitializer, hcloses, rfl⟩ := declarationValue_yields_iff.1 hvalue
        refine ⟨t :: name :: ps ++ [closing], by simp, ?_⟩
        intro segments more tail _ hothers
        rw [← cover_between t closing (name :: ps)]
        exact .declaration hvar hname hinitializer hcloses hothers
      · by_cases hbrace : t.kind = .leftBrace
        · rw [if_neg hvar, if_pos hbrace] at h
          obtain ⟨body, closing, hbody, rfl⟩ := h
          obtain ⟨hcloses, hreads⟩ := blockBody_reads hbody
          obtain ⟨within, rfl, hwithin⟩ := reads_segments hreads
          refine ⟨t :: within.flatten ++ [closing], by simp, ?_⟩
          intro segments more tail _ hothers
          rw [← cover_between t closing within.flatten]
          exact .block hbrace hwithin hcloses hothers
        · rw [if_neg hvar, if_neg hbrace] at h
          exact expressionStatement_cuts h.2
termination_by (ts.length, 0)

theorem reads_segments {ts rest : List Token} {p : List Stmt} (h : Reads ending ts p rest) :
    ∃ segments, ts = segments.flatten ++ rest ∧ Segments segments p := by
  cases h with
  | done => exact ⟨[], rfl, .nil⟩
  | @next _ after _ s more first others =>
      have hshorter := first.shorter
      obtain ⟨segments, hafter, hsegments⟩ := reads_segments others
      obtain ⟨ps, hps, hcons⟩ := statement_cuts first
      refine ⟨ps :: segments, ?_, hcons segments more rest hafter hsegments⟩
      rw [hps, hafter, List.flatten_cons, List.append_assoc]
termination_by (ts.length, 1)
decreasing_by
  all_goals subst_vars
  · exact Prod.Lex.left _ _ hshorter
  · exact Prod.Lex.right _ Nat.zero_lt_one

end

/-! ### Segments are read -/

theorem statement_of_beginsExpression (hbegins : beginsExpression ts = true)
    (h : Yields (expressionStatement ending ts) s rest) : Yields (statement ending ts) s rest := by
  cases ts with
  | nil => cases hbegins
  | cons t ts =>
      have hvar : t.kind ≠ .varWord := ne_of_startsExpression hbegins rfl
      have hbrace : t.kind ≠ .leftBrace := ne_of_startsExpression hbegins rfl
      have hreserved : t.kind.isReserved = false := by
        rw [beginsExpression] at hbegins
        generalize t.kind = kind at hbegins
        cases kind <;> first | rfl | cases hbegins
      rw [statement_cons_yields_iff, if_neg hvar, if_neg hbrace]
      exact ⟨hreserved, h⟩

/-- In front stands nothing that belongs to the expression before, and no semicolon. -/
structure Detached (rest : List Token) : Prop where
  stops : Stops rest
  semicolon : ∀ t ∈ rest.head?, t.kind ≠ .semicolon

theorem detached_cons (h : continues t.kind = false ∧ t.kind ≠ .semicolon) : Detached (t :: rest) :=
  ⟨stops_cons h.1, forall_head h.2⟩

theorem detached_of_begins (h : t.kind = .varWord ∨ t.kind = .leftBrace ∨ t.kind.startsExpression = true)
    (hne : t.kind ≠ .subtract) : Detached (t :: rest) := by
  apply detached_cons
  rcases h with h | h | h
  · rw [h]
    decide
  · rw [h]
    decide
  · generalize t.kind = kind at h hne
    cases kind <;> first | decide | exact absurd rfl hne | cases h

theorem detached_of_rightBrace (h : ∀ t ∈ rest.head?, t.kind = .rightBrace) : Detached rest := by
  cases rest with
  | nil => exact ⟨stops_nil, by simp⟩
  | cons t rest =>
      apply detached_cons
      rw [h t rfl]
      decide

theorem Segments.detached {segments : List (List Token)} {p : List Stmt} {tail : List Token}
    (h : Segments segments p) (greedy : ∀ t ∈ segments.flatten.head?, t.kind ≠ .subtract)
    (htail : ∀ t ∈ tail.head?, t.kind = .rightBrace) : Detached (segments.flatten ++ tail) := by
  cases hflatten : segments.flatten with
  | nil => exact detached_of_rightBrace htail
  | cons t after =>
      rw [hflatten] at greedy
      have hbegins := h.begins t (by rw [hflatten]; rfl)
      exact detached_of_begins hbegins (greedy t rfl)

section

variable {closing : Token} {after : List Token} {e : Expr}

theorem statement_of_declaration (opens : opening.kind = .varWord) (target : name.kind = .identifier)
    (value : Initializer ts initializer) (closes : closing.kind = .semicolon) :
    Yields (statement ending ((opening :: name :: ts ++ [closing]) ++ after))
      (.var name initializer (cover (opening :: name :: ts ++ [closing]))) after := by
  have hsplit : (opening :: name :: ts ++ [closing]) ++ after = opening :: name :: (ts ++ closing :: after) := by
    simp
  rw [hsplit, cover_between opening closing (name :: ts), statement_cons_yields_iff, if_pos opens,
    declaration_yields_iff]
  refine ⟨name, _, rfl, target, declarationValue_yields_iff.2 ?_⟩
  exact ⟨ts, initializer, closing, rfl, value, closes, rfl⟩

theorem statement_of_block {body : List Stmt} (opens : opening.kind = .leftBrace)
    (hinner : Reads ending (ts ++ closing :: after) body (closing :: after))
    (closes : closing.kind = .rightBrace) :
    Yields (statement ending ((opening :: ts ++ [closing]) ++ after))
      (.block body (cover (opening :: ts ++ [closing]))) after := by
  have hsplit : (opening :: ts ++ [closing]) ++ after = opening :: (ts ++ closing :: after) := by simp
  rw [hsplit, cover_between opening closing ts, statement_cons_yields_iff, if_neg (by simp [opens]),
    if_pos opens]
  exact ⟨body, closing, hinner.blockBody closes, rfl⟩

theorem statement_of_closed (tree : Derives .assignment ts e) (closes : closing.kind = .semicolon) :
    Yields (statement ending ((ts ++ [closing]) ++ after)) (.expression e (cover (ts ++ [closing]))) after := by
  rw [List.append_assoc]
  refine statement_of_beginsExpression (tree.beginsExpression _) (expressionStatement_yields_iff.2 ?_)
  refine ⟨e, closing :: after, ?_, .inl ⟨closing, rfl, closes, ?_⟩⟩
  · exact assignment_yields_iff.2 ⟨ts, rfl, tree, stops_semicolon closes⟩
  · rw [tree.span_closed]

theorem statement_of_bare (tree : Derives .assignment ts e) (hdetached : Detached after) :
    Yields (statement ending (ts ++ after)) (.expression e (cover ts)) after := by
  refine statement_of_beginsExpression (tree.beginsExpression _) (expressionStatement_yields_iff.2 ?_)
  refine ⟨e, after, ?_, .inr ⟨rfl, hdetached.semicolon, ?_⟩⟩
  · exact assignment_yields_iff.2 ⟨ts, rfl, tree, hdetached.stops⟩
  · rw [tree.span_eq]

end

namespace Segments

variable {segments : List (List Token)} {p : List Stmt} {tail : List Token}

theorem reads (h : Segments segments p) (htail : ∀ t ∈ tail.head?, t.kind = .rightBrace) :
    Reads ending (segments.flatten ++ tail) p tail := by
  induction h generalizing tail with
  | nil => exact .done
  | declaration opens target value closes _ ih =>
      rw [List.flatten_cons, List.append_assoc]
      exact .next (statement_of_declaration opens target value closes) (ih htail)
  | block opens _ closes _ ihinner ih =>
      rw [List.flatten_cons, List.append_assoc]
      exact .next (statement_of_block opens (ihinner (by simp [closes])) closes) (ih htail)
  | closed tree closes _ ih =>
      rw [List.flatten_cons, List.append_assoc]
      exact .next (statement_of_closed tree closes) (ih htail)
  | bare tree greedy others ih =>
      rw [List.flatten_cons, List.append_assoc]
      exact .next (statement_of_bare tree (others.detached greedy htail)) (ih htail)

/-- The first segment is what the parser takes first. -/
theorem uncons {ts : List Token} (h : Segments (ts :: segments) p) (ending : Place) :
    ∃ s more, p = s :: more ∧ Segments segments more ∧
      Yields (statement ending (ts ++ segments.flatten)) s segments.flatten := by
  cases h with
  | declaration opens target value closes others =>
      exact ⟨_, _, rfl, others, statement_of_declaration opens target value closes⟩
  | block opens inner closes others =>
      exact ⟨_, _, rfl, others, statement_of_block opens (inner.reads (by simp [closes])) closes⟩
  | closed tree closes others => exact ⟨_, _, rfl, others, statement_of_closed tree closes⟩
  | bare tree greedy others =>
      have hend : ∀ t ∈ ([] : List Token).head?, t.kind = .rightBrace := by simp
      have hdetached := others.detached greedy hend
      rw [List.append_nil] at hdetached
      exact ⟨_, _, rfl, others, statement_of_bare tree hdetached⟩

theorem unique {segments' : List (List Token)} {p' : List Stmt} (h : Segments segments p)
    (h' : Segments segments' p') (heq : segments.flatten = segments'.flatten) :
    segments = segments' ∧ p = p' := by
  induction segments generalizing segments' p p' with
  | nil =>
      cases segments' with
      | nil =>
          cases h
          cases h'
          exact ⟨rfl, rfl⟩
      | cons ts segments' =>
          obtain ⟨s, more, rfl, -, hfirst⟩ := h'.uncons default
          rw [← List.flatten_cons, ← heq] at hfirst
          exact absurd hfirst statement_nil_yields
  | cons ts segments ih =>
      obtain ⟨s, more, rfl, hothers, hfirst⟩ := h.uncons default
      cases segments' with
      | nil =>
          rw [← List.flatten_cons, heq] at hfirst
          exact absurd hfirst statement_nil_yields
      | cons ts' segments' =>
          obtain ⟨s', more', rfl, hothers', hfirst'⟩ := h'.uncons default
          rw [← List.flatten_cons, ← heq, List.flatten_cons] at hfirst'
          obtain ⟨rfl, hrest⟩ := hfirst.unique hfirst'
          obtain ⟨rfl, rfl⟩ := ih hothers hothers' hrest
          rw [List.flatten_cons, List.flatten_cons, List.append_cancel_right_eq] at heq
          exact ⟨by rw [heq], rfl⟩

end Segments

theorem statements_eq_ok_iff (ending : Place) {p : List Stmt} : statements ending ts = .ok p ↔
    ∃ segments, segments.flatten = ts ∧ Segments segments p := by
  constructor
  · intro h
    obtain ⟨segments, hts, hsegments⟩ := reads_segments (statements_reads h)
    rw [List.append_nil] at hts
    exact ⟨segments, hts.symm, hsegments⟩
  · rintro ⟨segments, rfl, h⟩
    have hreads : Reads ending (segments.flatten ++ []) p [] := h.reads (by simp)
    rw [List.append_nil] at hreads
    exact hreads.statements

end Blockscript.Grammar

namespace Blockscript

open Grammar

theorem parseProgram_eq_ok_iff {ts : List Token} {p : List Stmt} :
    parseProgram ts = .ok p ↔ ∃ segments, segments.flatten = ts ∧ Segments segments p := by
  rw [← statements_eq_ok_iff (endPlace ts), parseProgram]
  cases statements (endPlace ts) ts with
  | error m => simp
  | ok p' => simp

theorem exists_error_of_not_ok {ts : List Token} (h : ∀ p, parseProgram ts ≠ .ok p) :
    ∃ fault, parseProgram ts = .error fault := by
  cases hparse : parseProgram ts with
  | error fault => exact ⟨fault, rfl⟩
  | ok p => exact absurd hparse (h p)

/-- **Programs are parsed by the grammar.** Tokens are accepted with a list of statements exactly if they are the segments of these statements, and they are so in one way only. So nothing is accepted that has a token of a foreign kind, a parenthesis or brace without its counterpart, or a semicolon that ends nothing. -/
theorem parseProgram_accepts_segments (ts : List Token) :
    (∀ p, parseProgram ts = .ok p ↔ ∃ segments, segments.flatten = ts ∧ Segments segments p) ∧
    (∀ segments segments' p p', segments.flatten = ts → segments'.flatten = ts →
      Segments segments p → Segments segments' p' → segments = segments' ∧ p = p') ∧
    ((∃ t ∈ ts, foreign t.kind = true) ∨ ¬Matched ts ∨
        (∃ before t after, ts = before ++ t :: after ∧ t.kind = .semicolon ∧ Stray before) →
      ∃ fault, parseProgram ts = .error fault) := by
  refine ⟨fun p => parseProgram_eq_ok_iff, ?_, ?_⟩
  · intro segments segments' p p' hts hts' h h'
    exact h.unique h' (hts.trans hts'.symm)
  · intro hmalformed
    refine exists_error_of_not_ok fun p hparse => ?_
    obtain ⟨segments, rfl, h⟩ := parseProgram_eq_ok_iff.1 hparse
    rcases hmalformed with ⟨t, ht, hforeign⟩ | hunmatched | ⟨before, t, after, hts, hkind, hstray⟩
    · rw [h.not_foreign t ht] at hforeign
      cases hforeign
    · exact hunmatched h.neutral.matched
    · have hpunctuated := h.punctuated
      rw [hts] at hpunctuated
      exact hpunctuated.not_stray hkind hstray

theorem parseProgram_continues_difference :
    let opening : Token := ⟨.leftBrace, "\x7b", ⟨1, ⟨0, 1⟩⟩, none⟩
    let a : Token := ⟨.identifier, "a", ⟨1, ⟨2, 3⟩⟩, none⟩
    let closing : Token := ⟨.rightBrace, "\x7d", ⟨1, ⟨4, 5⟩⟩, none⟩
    let b : Token := ⟨.identifier, "b", ⟨2, ⟨6, 7⟩⟩, none⟩
    let minus : Token := ⟨.subtract, "-", ⟨3, ⟨8, 9⟩⟩, none⟩
    let c : Token := ⟨.identifier, "c", ⟨3, ⟨10, 11⟩⟩, none⟩
    parseProgram [opening, a, closing, b, minus, c] = .ok
      [.block [.expression (.reference a) ⟨2, 3⟩] ⟨0, 5⟩,
        .expression (.ofBinary (.reference b) minus (.reference c)) ⟨6, 11⟩] := by
  intro opening a closing b minus c
  have hname : ∀ t : Token, t.kind = .identifier → Derives (.chain .factor) [t] (.reference t) :=
    fun t kind => .operand .factor (.tightest (.name kind))
  have hloosest : ∀ {ts e}, Derives (.chain .term) ts e → Derives .assignment ts e :=
    fun h => .loosest (.operand .or (.operand .equality (.operand .comparison h)))
  have hminus : minus.kind ∈ [Kind.subtract, Kind.add] := by decide
  have hdifference := Derives.binary .term (.operand .term (hname b rfl)) hminus (hname c rfl)
  have hinner : Segments [[a]] [.expression (.reference a) ⟨2, 3⟩] :=
    .bare (hloosest (.operand .term (hname a rfl))) (by simp) .nil
  have houter : Segments [[b, minus, c]]
      [.expression (.ofBinary (.reference b) minus (.reference c)) ⟨6, 11⟩] :=
    .bare (hloosest hdifference) (by simp) .nil
  have hblock := Segments.block (show opening.kind = .leftBrace from rfl) hinner
    (show closing.kind = .rightBrace from rfl) houter
  exact ((parseProgram_accepts_segments _).1 _).2 ⟨_, rfl, hblock⟩

end Blockscript
