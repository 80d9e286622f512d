import Blockscript.Proofs.Grammar.Derivation

/-!
# The grammar of programs

The tokens of a program are those of its statements, one segment after another. A declaration ends with a semicolon and a block with a brace, so it is plain where they stop. An expression may stand without a semicolon; a minus sign could then go on with it or begin the next segment, and the grammar wants the former.

A statement covers its segment, from the start of the first token to the end of the last one.
-/

namespace Blockscript.Grammar

/-- From the start of the first token to the end of the last one. -/
def cover (ts : List Token) : Span :=
  match ts.head?, ts.getLast? with
  | some first, some last => first.span.through last.span
  | _, _ => default

/-- What stands between the name and the semicolon of a declaration. -/
inductive Initializer : List Token → Option Expr → Prop
  | absent : Initializer [] none
  | present {equals : Token} {ts : List Token} {value : Expr} (sign : equals.kind = .assign)
      (right : Derives .assignment ts value) : Initializer (equals :: ts) (some value)

/-- The segments of the statements of a program or block. -/
inductive Segments : List (List Token) → List Stmt → Prop
  | nil : Segments [] []
  | declaration {opening name closing : Token} {ts : List Token} {initializer : Option Expr}
      {segments : List (List Token)} {more : List Stmt} (opens : opening.kind = .varWord)
      (target : name.kind = .identifier) (value : Initializer ts initializer)
      (closes : closing.kind = .semicolon) (others : Segments segments more) :
      Segments ((opening :: name :: ts ++ [closing]) :: segments)
        (.var name initializer (cover (opening :: name :: ts ++ [closing])) :: more)
  | block {opening closing : Token} {within segments : List (List Token)} {body more : List Stmt}
      (opens : opening.kind = .leftBrace) (inner : Segments within body)
      (closes : closing.kind = .rightBrace) (others : Segments segments more) :
      Segments ((opening :: within.flatten ++ [closing]) :: segments)
        (.block body (cover (opening :: within.flatten ++ [closing])) :: more)
  | closed {closing : Token} {ts : List Token} {e : Expr} {segments : List (List Token)} {more : List Stmt}
      (tree : Derives .assignment ts e) (closes : closing.kind = .semicolon)
      (others : Segments segments more) :
      Segments ((ts ++ [closing]) :: segments) (.expression e (cover (ts ++ [closing])) :: more)
  | bare {ts : List Token} {e : Expr} {segments : List (List Token)} {more : List Stmt}
      (tree : Derives .assignment ts e) (greedy : ∀ t ∈ segments.flatten.head?, t.kind ≠ .subtract)
      (others : Segments segments more) :
      Segments (ts :: segments) (.expression e (cover ts) :: more)

/-! ### Ranges -/

theorem cover_singleton (t : Token) : cover [t] = t.span :=
  rfl

theorem cover_append {ls rs : List Token} (hl : ls ≠ []) (hr : rs ≠ []) :
    cover (ls ++ rs) = (cover ls).through (cover rs) := by
  obtain ⟨first, ls, rfl⟩ := List.exists_cons_of_ne_nil hl
  obtain ⟨second, rs, rfl⟩ := List.exists_cons_of_ne_nil hr
  have hlast := List.getLast?_eq_some_getLast hl
  have hlast' := List.getLast?_eq_some_getLast hr
  unfold cover
  rw [List.getLast?_append_of_ne_nil _ hr, hlast, hlast']
  rfl

theorem cover_cons {t : Token} {ts : List Token} (h : ts ≠ []) :
    cover (t :: ts) = t.span.through (cover ts) :=
  cover_append (List.cons_ne_nil t []) h

theorem cover_between (opening closing : Token) (ts : List Token) :
    cover (opening :: ts ++ [closing]) = opening.span.through closing.span := by
  rw [List.cons_append, cover_cons (by simp)]
  by_cases hts : ts = []
  · rw [hts]
    rfl
  · rw [cover_append hts (List.cons_ne_nil closing [])]
    rfl

theorem Derives.span_eq {stratum : Stratum} {ts : List Token} {e : Expr} (h : Derives stratum ts e) :
    e.span = cover ts := by
  induction h with
  | assign _ _ right ih =>
      rw [cover_cons (List.cons_ne_nil _ _), cover_cons right.ne_nil, Expr.span_ofAssign, ih]
      rfl
  | loosest _ ih | operand _ _ ih | tightest _ ih => exact ih
  | binary _ left _ right ihleft ihright =>
      rw [cover_append left.ne_nil (List.cons_ne_nil _ _), cover_cons right.ne_nil, Expr.span_ofBinary,
        ihleft, ihright]
      rfl
  | unary _ right ih => rw [cover_cons right.ne_nil, Expr.span_ofUnary, ih]
  | literal _ | name _ => rfl
  | grouping _ _ _ _ =>
      rw [cover_between]
      rfl

theorem Derives.span_closed {ts : List Token} {e : Expr} (h : Derives .assignment ts e) (closing : Token) :
    e.span.through closing.span = cover (ts ++ [closing]) := by
  rw [cover_append h.ne_nil (List.cons_ne_nil _ _), h.span_eq, cover_singleton]

/-! ### First tokens -/

theorem Segments.begins {segments : List (List Token)} {p : List Stmt} (h : Segments segments p) :
    ∀ t ∈ segments.flatten.head?,
      t.kind = .varWord ∨ t.kind = .leftBrace ∨ t.kind.startsExpression = true := by
  intro t ht
  cases h with
  | nil => cases ht
  | declaration opens _ _ _ _ =>
      obtain rfl := Option.some.inj ht
      exact .inl opens
  | block opens _ _ _ =>
      obtain rfl := Option.some.inj ht
      exact .inr (.inl opens)
  | closed tree _ _ =>
      rw [List.flatten_cons, List.append_assoc] at ht
      exact .inr (.inr (tree.begins _ t ht))
  | bare tree _ _ => exact .inr (.inr (tree.begins _ t ht))

end Blockscript.Grammar
