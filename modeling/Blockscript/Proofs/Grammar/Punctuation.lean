import Blockscript.Proofs.Grammar.Segments

/-!
# The tokens of programs

What the grammar of programs says about single tokens: which kinds do not occur, that parentheses and braces match, and that a semicolon stands behind an expression or a name and outside parentheses. An expression closes the parentheses that it opens, so whatever is due before it is due behind it; this carries the argument through blocks inside one another.
-/

namespace Blockscript.Grammar

/-! ### Kinds of tokens -/

/-- Kinds that no program has. -/
def foreign : Kind → Bool
  | .comma | .ignore | .undefined => true
  | kind => kind.isReserved

/-- Kinds that belong to statements only. -/
def delimits : Kind → Bool
  | .semicolon | .varWord | .leftBrace | .rightBrace => true
  | _ => false

/-- Kinds that an expression can end with. -/
def endsExpression : Kind → Bool
  | .number | .string | .trueWord | .falseWord | .nullWord | .identifier | .rightParen => true
  | _ => false

theorem Derives.plain {stratum : Stratum} {ts : List Token} {e : Expr} (h : Derives stratum ts e) :
    ∀ t ∈ ts, foreign t.kind = false ∧ delimits t.kind = false := by
  induction h with
  | assign target sign _ ih =>
      refine List.forall_mem_cons.2 ⟨?_, List.forall_mem_cons.2 ⟨?_, ih⟩⟩
      · rw [target]
        decide
      · rw [sign]
        decide
  | loosest _ ih | operand _ _ ih | tightest _ ih => exact ih
  | @binary _ operators _ _ _ _ _ _ joins _ sign _ ihleft ihright =>
      have hoperators : ∀ kind ∈ operators, foreign kind = false ∧ delimits kind = false := by
        cases joins <;> decide
      exact List.forall_mem_append.2 ⟨ihleft, List.forall_mem_cons.2 ⟨hoperators _ sign, ihright⟩⟩
  | unary sign _ ih =>
      refine List.forall_mem_cons.2 ⟨?_, ih⟩
      rcases sign with sign | sign <;> rw [sign] <;> decide
  | literal constant =>
      have hconstants : ∀ kind ∈ [Kind.trueWord, .falseWord, .nullWord, .number, .string],
          foreign kind = false ∧ delimits kind = false := by decide
      exact List.forall_mem_singleton.2 (hconstants _ constant.kind_mem)
  | name kind =>
      refine List.forall_mem_singleton.2 ?_
      rw [kind]
      decide
  | grouping opens closes _ ih =>
      refine List.forall_mem_append.2 ⟨List.forall_mem_cons.2 ⟨?_, ih⟩, List.forall_mem_singleton.2 ?_⟩
      · rw [opens]
        decide
      · rw [closes]
        decide

theorem Derives.endsExpression {stratum : Stratum} {ts : List Token} {e : Expr} (h : Derives stratum ts e) :
    ∃ last ∈ ts.getLast?, endsExpression last.kind = true := by
  induction h with
  | assign _ _ right ih =>
      rwa [List.getLast?_cons_cons, List.getLast?_cons_of_ne_nil right.ne_nil]
  | loosest _ ih | operand _ _ ih | tightest _ ih => exact ih
  | binary _ _ _ right _ ihright =>
      rwa [List.getLast?_append_of_ne_nil _ (List.cons_ne_nil _ _), List.getLast?_cons_of_ne_nil right.ne_nil]
  | unary _ right ih => rwa [List.getLast?_cons_of_ne_nil right.ne_nil]
  | literal constant =>
      have hconstants : ∀ kind ∈ [Kind.trueWord, .falseWord, .nullWord, .number, .string],
          Grammar.endsExpression kind = true := by decide
      exact ⟨_, List.getLast?_singleton, hconstants _ constant.kind_mem⟩
  | name kind =>
      refine ⟨_, List.getLast?_singleton, ?_⟩
      rw [kind]
      rfl
  | grouping _ closes _ _ =>
      refine ⟨_, List.getLast?_concat, ?_⟩
      rw [closes]
      rfl

theorem Initializer.plain {ts : List Token} {initializer : Option Expr} (h : Initializer ts initializer) :
    ∀ t ∈ ts, foreign t.kind = false ∧ delimits t.kind = false := by
  cases h with
  | absent => simp
  | present sign right =>
      refine List.forall_mem_cons.2 ⟨?_, right.plain⟩
      rw [sign]
      decide

theorem Segments.not_foreign {segments : List (List Token)} {p : List Stmt} (h : Segments segments p) :
    ∀ t ∈ segments.flatten, foreign t.kind = false := by
  induction h with
  | nil => simp
  | declaration opens target value closes _ ih =>
      refine List.forall_mem_append.2 ⟨List.forall_mem_append.2 ⟨?_, ?_⟩, ih⟩
      · refine List.forall_mem_cons.2 ⟨?_, List.forall_mem_cons.2 ⟨?_, fun t ht => (value.plain t ht).1⟩⟩
        · rw [opens]
          rfl
        · rw [target]
          rfl
      · refine List.forall_mem_singleton.2 ?_
        rw [closes]
        rfl
  | block opens _ closes _ ihinner ih =>
      refine List.forall_mem_append.2 ⟨List.forall_mem_append.2 ⟨List.forall_mem_cons.2 ⟨?_, ihinner⟩, ?_⟩, ih⟩
      · rw [opens]
        rfl
      · refine List.forall_mem_singleton.2 ?_
        rw [closes]
        rfl
  | closed tree closes _ ih =>
      refine List.forall_mem_append.2 ⟨List.forall_mem_append.2 ⟨fun t ht => (tree.plain t ht).1, ?_⟩, ih⟩
      refine List.forall_mem_singleton.2 ?_
      rw [closes]
      rfl
  | bare tree _ _ ih => exact List.forall_mem_append.2 ⟨fun t ht => (tree.plain t ht).1, ih⟩

/-! ### Parentheses and braces -/

def brackets : Kind → Bool
  | .leftParen | .rightParen | .leftBrace | .rightBrace => true
  | _ => false

/-- The closing signs that are due after the tokens, the innermost first. There are none if a closing sign stands where it is not due. -/
def due (stack : List Kind) : List Token → Option (List Kind)
  | [] => some stack
  | t :: ts =>
    match t.kind with
    | .leftParen => due (.rightParen :: stack) ts
    | .leftBrace => due (.rightBrace :: stack) ts
    | .rightParen => if stack.head? = some .rightParen then due stack.tail ts else none
    | .rightBrace => if stack.head? = some .rightBrace then due stack.tail ts else none
    | _ => due stack ts

/-- Every parenthesis and brace has its counterpart. -/
def Matched (ts : List Token) : Prop :=
  due [] ts = some []

instance (ts : List Token) : Decidable (Matched ts) :=
  inferInstanceAs (Decidable (due [] ts = some []))

/-- The tokens close what they open, and nothing else. -/
def Neutral (ts : List Token) : Prop :=
  ∀ stack rest, due stack (ts ++ rest) = due stack rest

namespace Neutral

variable {opening closing t : Token} {ls ts : List Token}

theorem append (hl : Neutral ls) (h : Neutral ts) : Neutral (ls ++ ts) := by
  intro stack rest
  rw [List.append_assoc, hl, h]

theorem cons (hkind : brackets t.kind = false) (h : Neutral ts) : Neutral (t :: ts) := by
  intro stack rest
  rw [List.cons_append, due]
  cases hcase : t.kind <;> first | exact h stack rest | simp [hcase, brackets] at hkind

theorem parenthesised (opens : opening.kind = .leftParen) (closes : closing.kind = .rightParen)
    (h : Neutral ts) : Neutral (opening :: ts ++ [closing]) := by
  intro stack rest
  rw [List.append_assoc, List.cons_append, due, opens]
  show due (.rightParen :: stack) (ts ++ (closing :: rest)) = due stack rest
  rw [h, due, closes]
  rfl

theorem braced (opens : opening.kind = .leftBrace) (closes : closing.kind = .rightBrace)
    (h : Neutral ts) : Neutral (opening :: ts ++ [closing]) := by
  intro stack rest
  rw [List.append_assoc, List.cons_append, due, opens]
  show due (.rightBrace :: stack) (ts ++ (closing :: rest)) = due stack rest
  rw [h, due, closes]
  rfl

theorem matched (h : Neutral ts) : Matched ts := by
  have hdue := h [] []
  rwa [List.append_nil] at hdue

end Neutral

theorem neutral_nil : Neutral [] :=
  fun _ _ => rfl

theorem neutral_singleton {t : Token} (hkind : brackets t.kind = false) : Neutral [t] :=
  neutral_nil.cons hkind

theorem Derives.neutral {stratum : Stratum} {ts : List Token} {e : Expr} (h : Derives stratum ts e) :
    Neutral ts := by
  induction h with
  | assign target sign _ ih =>
      refine (ih.cons ?_).cons ?_
      · rw [sign]
        rfl
      · rw [target]
        rfl
  | loosest _ ih | operand _ _ ih | tightest _ ih => exact ih
  | @binary _ operators _ _ _ _ _ _ joins _ sign _ ihleft ihright =>
      have hoperators : ∀ kind ∈ operators, brackets kind = false := by
        cases joins <;> decide
      exact ihleft.append (ihright.cons (hoperators _ sign))
  | unary sign _ ih =>
      refine ih.cons ?_
      rcases sign with sign | sign <;> rw [sign] <;> rfl
  | literal constant =>
      have hconstants : ∀ kind ∈ [Kind.trueWord, .falseWord, .nullWord, .number, .string],
          brackets kind = false := by decide
      exact neutral_singleton (hconstants _ constant.kind_mem)
  | name kind =>
      refine neutral_singleton ?_
      rw [kind]
      rfl
  | grouping opens closes _ ih => exact ih.parenthesised opens closes

theorem Initializer.neutral {ts : List Token} {initializer : Option Expr} (h : Initializer ts initializer) :
    Neutral ts := by
  cases h with
  | absent => exact neutral_nil
  | present sign right =>
      refine right.neutral.cons ?_
      rw [sign]
      rfl

theorem neutral_semicolon {t : Token} (h : t.kind = .semicolon) : Neutral [t] := by
  refine neutral_singleton ?_
  rw [h]
  rfl

theorem Initializer.neutral_declaration {opening name : Token} {ts : List Token} {initializer : Option Expr}
    (h : Initializer ts initializer) (opens : opening.kind = .varWord) (target : name.kind = .identifier) :
    Neutral (opening :: name :: ts) := by
  refine (h.neutral.cons ?_).cons ?_
  · rw [target]
    rfl
  · rw [opens]
    rfl

theorem Segments.neutral {segments : List (List Token)} {p : List Stmt} (h : Segments segments p) :
    Neutral segments.flatten := by
  induction h with
  | nil => exact neutral_nil
  | declaration opens target value closes _ ih =>
      exact ((value.neutral_declaration opens target).append (neutral_semicolon closes)).append ih
  | block opens _ closes _ ihinner ih => exact (ihinner.braced opens closes).append ih
  | closed tree closes _ ih => exact (tree.neutral.append (neutral_semicolon closes)).append ih
  | bare tree _ _ ih => exact tree.neutral.append ih

/-! ### Semicolons -/

/-- A semicolon behind the tokens would end nothing: no expression and no name stands before it, or it stands in parentheses. -/
def Stray (before : List Token) : Prop :=
  (∀ t ∈ before.getLast?, endsExpression t.kind = false) ∨ ∃ stack, due [] before = some (.rightParen :: stack)

/-- The semicolons among the tokens end something, wherever the tokens stand outside parentheses. -/
def Punctuated (ts : List Token) : Prop :=
  ∀ stack, stack.head? ≠ some .rightParen → ∀ before t after, ts = before ++ t :: after →
    t.kind = .semicolon → (∃ last ∈ before.getLast?, endsExpression last.kind = true) ∧
    ∃ stack', due stack before = some stack' ∧ stack'.head? ≠ some .rightParen

namespace Punctuated

variable {ls ts : List Token}

theorem of_ne (h : ∀ t ∈ ts, t.kind ≠ .semicolon) : Punctuated ts := by
  intro stack _ before t after hts hkind
  have hmem : t ∈ ts := by simp [hts]
  exact absurd hkind (h t hmem)

theorem append (hneutral : Neutral ls) (hl : Punctuated ls) (h : Punctuated ts) : Punctuated (ls ++ ts) := by
  intro stack hstack before t after hts hkind
  rcases List.append_eq_append_iff.1 hts with ⟨mid, rfl, hmid⟩ | ⟨mid, rfl, hmid⟩
  · obtain ⟨⟨last, hlast, hends⟩, hdue⟩ := h stack hstack mid t after hmid hkind
    rw [hneutral, List.getLast?_append]
    refine ⟨⟨last, ?_, hends⟩, hdue⟩
    rw [hlast]
    rfl
  · cases mid with
    | nil =>
        obtain ⟨⟨last, hlast, hends⟩, hdue⟩ := h stack hstack [] t after hmid.symm hkind
        cases hlast
    | cons t' mid =>
        obtain ⟨rfl, hmid⟩ := List.cons.inj hmid
        exact hl stack hstack before t mid rfl hkind

theorem concat {closing : Token} (hneutral : Neutral ts) (h : ∀ t ∈ ts, t.kind ≠ .semicolon)
    (hends : ∃ last ∈ ts.getLast?, endsExpression last.kind = true) : Punctuated (ts ++ [closing]) := by
  intro stack hstack before t after hts hkind
  have hbefore : before = ts := by
    rcases List.append_eq_append_iff.1 hts with ⟨mid, rfl, hmid⟩ | ⟨mid, rfl, hmid⟩
    · cases mid with
      | nil => exact List.append_nil ts
      | cons t' mid => simp at hmid
    · cases mid with
      | nil => exact (List.append_nil before).symm
      | cons t' mid =>
          obtain ⟨rfl, -⟩ := List.cons.inj hmid
          exact absurd hkind (h t (by simp))
  subst hbefore
  refine ⟨hends, stack, ?_, hstack⟩
  have hdue := hneutral stack []
  rwa [List.append_nil] at hdue

theorem braced {opening closing : Token} (opens : opening.kind = .leftBrace)
    (closes : closing.kind = .rightBrace) (hneutral : Neutral ts) (h : Punctuated ts) :
    Punctuated (opening :: ts ++ [closing]) := by
  have hclosing : Punctuated [closing] := by
    refine of_ne (List.forall_mem_singleton.2 ?_)
    rw [closes]
    decide
  have hinner := append hneutral h hclosing
  intro stack _ before t after hts hkind
  cases before with
  | nil =>
      obtain ⟨rfl, -⟩ := List.cons.inj hts
      rw [opens] at hkind
      cases hkind
  | cons first before =>
      obtain ⟨rfl, hrest⟩ := List.cons.inj hts
      obtain ⟨⟨last, hlast, hends⟩, hdue⟩ := hinner (.rightBrace :: stack) (by simp) before t after hrest hkind
      have hne : before ≠ [] := by
        rintro rfl
        cases hlast
      rw [due, opens, List.getLast?_cons_of_ne_nil hne]
      exact ⟨⟨last, hlast, hends⟩, hdue⟩

theorem not_stray {before after : List Token} {t : Token} (h : Punctuated (before ++ t :: after))
    (hkind : t.kind = .semicolon) : ¬Stray before := by
  obtain ⟨⟨last, hlast, hends⟩, stack', hdue, hstack'⟩ := h [] (by simp) before t after rfl hkind
  rintro (hlacks | ⟨stack, hparen⟩)
  · rw [hlacks last hlast] at hends
    cases hends
  · rw [hparen] at hdue
    obtain rfl := Option.some.inj hdue
    exact hstack' rfl

end Punctuated

theorem ne_semicolon {t : Token} (h : delimits t.kind = false) : t.kind ≠ .semicolon := by
  intro hkind
  rw [hkind] at h
  cases h

theorem Initializer.punctuated_declaration {opening name closing : Token} {ts : List Token}
    {initializer : Option Expr} (h : Initializer ts initializer) (opens : opening.kind = .varWord)
    (target : name.kind = .identifier) : Punctuated (opening :: name :: ts ++ [closing]) := by
  refine Punctuated.concat (h.neutral_declaration opens target) ?_ ?_
  · refine List.forall_mem_cons.2 ⟨?_, List.forall_mem_cons.2 ⟨?_, ?_⟩⟩
    · rw [opens]
      decide
    · rw [target]
      decide
    · intro t ht
      exact ne_semicolon (h.plain t ht).2
  · rw [List.getLast?_cons_cons]
    cases h with
    | absent =>
        refine ⟨name, List.getLast?_singleton, ?_⟩
        rw [target]
        rfl
    | present sign right =>
        rw [List.getLast?_cons_cons, List.getLast?_cons_of_ne_nil right.ne_nil]
        exact right.endsExpression

theorem Segments.punctuated {segments : List (List Token)} {p : List Stmt} (h : Segments segments p) :
    Punctuated segments.flatten := by
  induction h with
  | nil => exact .of_ne (by simp)
  | declaration opens target value closes _ ih =>
      exact .append ((value.neutral_declaration opens target).append (neutral_semicolon closes))
        (value.punctuated_declaration opens target) ih
  | block opens inner closes _ ihinner ih =>
      exact .append (inner.neutral.braced opens closes) (.braced opens closes inner.neutral ihinner) ih
  | closed tree closes _ ih =>
      have hplain := fun t ht => ne_semicolon (tree.plain t ht).2
      exact .append (tree.neutral.append (neutral_semicolon closes))
        (.concat tree.neutral hplain tree.endsExpression) ih
  | bare tree _ _ ih =>
      exact .append tree.neutral (.of_ne fun t ht => ne_semicolon (tree.plain t ht).2) ih

end Blockscript.Grammar
