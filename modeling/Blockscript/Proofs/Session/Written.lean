import Blockscript.Proofs.Session.Causes
import Blockscript.Proofs.Session.Places

/-!
# Expressions written down

Any tree whose operators and names are such as the grammar knows can be written as tokens, if operands are put in parentheses unless they are literals, names or groupings. An operand is then a primary expression, so it stands where any level wants one, and the parser groups as the tree does, whatever the operators are.

What the parser adds are groupings, and a grouping does nothing: an expression without its groupings runs as it did with them.
-/

namespace Blockscript

open Grammar
open Move (forget)

/-! ### Groupings -/

/-- The expression without its groupings. -/
def Expr.ungrouped : Expr → Expr
  | .literal value span => .literal value span
  | .grouping inner _ => inner.ungrouped
  | .unary operator right span => .unary operator right.ungrouped span
  | .binary left operator right span => .binary left.ungrouped operator right.ungrouped span
  | .reference name => .reference name
  | .assign name value span => .assign name value.ungrouped span

theorem Expr.eval_ungrouped (e : Expr) (s : Session) : e.ungrouped.eval s = e.eval s := by
  induction e generalizing s with
  | literal value span => rfl
  | grouping inner span ih => exact ih s
  | unary operator right span ih => rw [ungrouped, eval, eval, ih]
  | binary left operator right span ihleft ihright =>
      rw [ungrouped, eval, eval, ihleft]
      simp only [ihright]
  | reference name => rfl
  | assign name value span ih => rw [ungrouped, eval, eval, ih]

theorem Move.expr_ungrouped (m : Move) (e : Expr) : (m.expr e).ungrouped = m.expr e.ungrouped := by
  induction e with
  | literal value span => rfl
  | grouping inner span ih => exact ih
  | unary operator right span ih => rw [expr, Expr.ungrouped, Expr.ungrouped, expr, ih]
  | binary left operator right span ihleft ihright =>
      rw [expr, Expr.ungrouped, Expr.ungrouped, expr, ihleft, ihright]
  | reference name => rfl
  | assign name value span ih => rw [expr, Expr.ungrouped, Expr.ungrouped, expr, ih]

/-- The same expression, whatever the places and the groupings in it. -/
def Expr.AmountsTo (e e' : Expr) : Prop := e.ungrouped.Alike e'.ungrouped

theorem Expr.Alike.amountsTo {e e' : Expr} (h : e.Alike e') : e.AmountsTo e' := by
  rw [Expr.AmountsTo, Expr.Alike, ← Move.expr_ungrouped, ← Move.expr_ungrouped]
  exact congrArg Expr.ungrouped h

namespace Expr.AmountsTo

variable {e e' left left' right right' : Expr} {span span' : Span}

theorem eval (h : e.AmountsTo e') (s : Session) :
    ResultsAlike Eq (e.eval s).result (e'.eval s).result ∧ (e.eval s).session = (e'.eval s).session := by
  rw [← e.eval_ungrouped, ← e'.eval_ungrouped]
  exact Expr.eval_alike h s

theorem unary (operator : Token) (h : right.AmountsTo right') :
    (Expr.unary operator right span).AmountsTo (.unary operator right' span') :=
  congrArg (fun right => Expr.unary (forget.token operator) right ⟨0, 0⟩) h

theorem binary (operator : Token) (h : left.AmountsTo left') (h' : right.AmountsTo right') :
    (Expr.binary left operator right span).AmountsTo (.binary left' operator right' span') :=
  congrArg₂ (fun left right => Expr.binary left (forget.token operator) right ⟨0, 0⟩) h h'

theorem assign (name : Token) (h : e.AmountsTo e') :
    (Expr.assign name e span).AmountsTo (.assign name e' span') :=
  congrArg (fun value => Expr.assign (forget.token name) value ⟨0, 0⟩) h

end Expr.AmountsTo

/-! ### Writing -/

/-- The operators are such as the grammar has in their places, and the names are names. -/
def Expr.Writable : Expr → Prop
  | .literal _ _ => True
  | .grouping inner _ => inner.Writable
  | .unary operator right _ => (operator.kind = .not ∨ operator.kind = .subtract) ∧ right.Writable
  | .binary left operator right _ => operator.kind ∈ joining ∧ left.Writable ∧ right.Writable
  | .reference name => name.kind = .identifier
  | .assign name value _ => name.kind = .identifier ∧ value.Writable

/-- The token that stands for a value. -/
def Value.token : Value → Token
  | .null => ⟨.nullWord, "null", default, none⟩
  | .bool true => ⟨.trueWord, "true", default, none⟩
  | .bool false => ⟨.falseWord, "false", default, none⟩
  | .number x => ⟨.number, (Value.number x).text, default, some (.number x)⟩
  | .string text => ⟨.string, "\"" ++ text ++ "\"", default, some (.string text)⟩

/-- Tokens with or without parentheses around them. -/
def enclosed (ts : List Token) : Bool → List Token
  | true => ⟨.leftParen, "(", default, none⟩ :: ts ++ [⟨.rightParen, ")", default, none⟩]
  | false => ts

/-- Literals, names and groupings need no parentheses. -/
def Expr.isAtom : Expr → Bool
  | .literal _ _ => true
  | .grouping _ _ => true
  | .reference _ => true
  | _ => false

/-- The tokens of an expression, with every operand in parentheses that is not a literal, a name or a grouping. The value of an assignment can do without, so `wrapped` says which values are put in parentheses. -/
def Expr.tokens (wrapped : Expr → Bool) : Expr → List Token
  | .literal value _ => [value.token]
  | .grouping inner _ => enclosed (inner.tokens wrapped) true
  | .unary operator right _ => operator :: enclosed (right.tokens wrapped) (!right.isAtom)
  | .binary left operator right _ =>
    enclosed (left.tokens wrapped) (!left.isAtom) ++ operator :: enclosed (right.tokens wrapped) (!right.isAtom)
  | .reference name => [name]
  | .assign name value _ =>
    name :: ⟨.assign, "=", default, none⟩ :: enclosed (value.tokens wrapped) (wrapped value)

theorem Value.token_constant (value : Value) : Constant value.token value := by
  cases value with
  | null => exact .nullWord rfl
  | bool b =>
      cases b with
      | false => exact .falseWord rfl
      | true => exact .trueWord rfl
  | number x => exact .number rfl rfl
  | string text => exact .string rfl rfl

namespace Grammar

variable {ts ls rs : List Token} {e left right value : Expr} {operator name : Token} {span : Span}

/-- A primary expression stands in any stratum. -/
theorem Derives.of_primary (h : Derives .primary ts e) (stratum : Stratum) : Derives stratum ts e := by
  have hfactor : Derives (.chain .factor) ts e := .operand .factor (.tightest h)
  have hterm : Derives (.chain .term) ts e := .operand .term hfactor
  have hcomparison : Derives (.chain .comparison) ts e := .operand .comparison hterm
  have hequality : Derives (.chain .equality) ts e := .operand .equality hcomparison
  cases stratum with
  | assignment => exact h.toAssignment
  | chain level =>
      cases level with
      | or => exact .operand .or hequality
      | equality => exact hequality
      | comparison => exact hcomparison
      | term => exact hterm
      | factor => exact hfactor
  | unary => exact .tightest h
  | primary => exact h

theorem exists_joins_of_joining {kind : Kind} (h : kind ∈ joining) :
    ∃ level operators next, Joins level operators next ∧ kind ∈ operators := by
  have hlevels : joining = List.flatten [[.or], [.equivalent, .notEqual],
      [.greaterThan, .greaterEqual, .lessThan, .lessEqual], [.subtract, .add], [.divide, .multiply]] := rfl
  rw [hlevels] at h
  simp only [List.flatten_cons, List.mem_append, List.flatten_nil, List.append_nil] at h
  rcases h with h | h | h | h | h
  · exact ⟨_, _, _, .or, h⟩
  · exact ⟨_, _, _, .equality, h⟩
  · exact ⟨_, _, _, .comparison, h⟩
  · exact ⟨_, _, _, .term, h⟩
  · exact ⟨_, _, _, .factor, h⟩

/-- The tokens are read in a stratum as something that amounts to the expression. -/
def Renders (stratum : Stratum) (ts : List Token) (e : Expr) : Prop :=
  ∃ e', Derives stratum ts e' ∧ e'.AmountsTo e

namespace Renders

theorem toAssignment (h : Renders .primary ts e) : Renders .assignment ts e := by
  obtain ⟨e', hderives, hsame⟩ := h
  exact ⟨e', hderives.toAssignment, hsame⟩

theorem parenthesised (h : Renders .assignment ts e) : Renders .primary (enclosed ts true) e := by
  obtain ⟨e', hderives, hsame⟩ := h
  exact ⟨_, .grouping rfl rfl hderives, hsame⟩

theorem enclosed (h : Renders .assignment ts e) (wrapped : Bool) :
    Renders .assignment (Blockscript.enclosed ts wrapped) e := by
  cases wrapped with
  | false => exact h
  | true => exact h.parenthesised.toAssignment

theorem unary (hkind : operator.kind = .not ∨ operator.kind = .subtract) (h : Renders .primary ts right) :
    Renders .assignment (operator :: ts) (.unary operator right span) := by
  obtain ⟨right', hright, hsame⟩ := h
  exact ⟨_, (Derives.unary hkind (hright.of_primary .unary)).toAssignment, hsame.unary operator⟩

theorem binary (hkind : operator.kind ∈ joining) (h : Renders .primary ls left) (h' : Renders .primary rs right) :
    Renders .assignment (ls ++ operator :: rs) (.binary left operator right span) := by
  obtain ⟨left', hleft, hsame⟩ := h
  obtain ⟨right', hright, hsame'⟩ := h'
  obtain ⟨level, operators, next, hjoins, hmem⟩ := exists_joins_of_joining hkind
  have hderives := Derives.binary hjoins (hleft.of_primary (.chain level)) hmem (hright.of_primary next)
  exact ⟨_, hderives.toAssignment, hsame.binary operator hsame'⟩

theorem assign {equals : Token} (hname : name.kind = .identifier) (hequals : equals.kind = .assign)
    (h : Renders .assignment ts value) : Renders .assignment (name :: equals :: ts) (.assign name value span) := by
  obtain ⟨value', hvalue, hsame⟩ := h
  exact ⟨_, .assign hname hequals hvalue, hsame.assign name⟩

end Renders

end Grammar

/-- The tokens of an expression are read as the expression. In parentheses, or without them if it needs none, it is an operand. -/
theorem Expr.renders_tokens (wrapped : Expr → Bool) {e : Expr} (h : e.Writable) :
    Renders .assignment (e.tokens wrapped) e ∧ Renders .primary (enclosed (e.tokens wrapped) (!e.isAtom)) e := by
  induction e with
  | literal value span =>
      have hread : Renders .primary [value.token] (.literal value span) := ⟨_, .literal value.token_constant, rfl⟩
      exact ⟨hread.toAssignment, hread⟩
  | grouping inner span ih =>
      have hread : Renders .primary (tokens wrapped (.grouping inner span)) (.grouping inner span) :=
        (ih h).1.parenthesised
      exact ⟨hread.toAssignment, hread⟩
  | unary operator right span ih =>
      obtain ⟨hkind, hright⟩ := h
      have hread : Renders .assignment (tokens wrapped (.unary operator right span)) (.unary operator right span) :=
        .unary hkind (ih hright).2
      exact ⟨hread, hread.parenthesised⟩
  | binary left operator right span ihleft ihright =>
      obtain ⟨hkind, hleft, hright⟩ := h
      have hread : Renders .assignment (tokens wrapped (.binary left operator right span))
          (.binary left operator right span) := .binary hkind (ihleft hleft).2 (ihright hright).2
      exact ⟨hread, hread.parenthesised⟩
  | reference name =>
      have hread : Renders .primary [name] (.reference name) := ⟨_, .name h, rfl⟩
      exact ⟨hread.toAssignment, hread⟩
  | assign name value span ih =>
      obtain ⟨hname, hvalue⟩ := h
      have hread : Renders .assignment (tokens wrapped (.assign name value span)) (.assign name value span) :=
        .assign hname rfl ((ih hvalue).1.enclosed (wrapped value))
      exact ⟨hread, hread.parenthesised⟩

/-- **Expressions can be written down and read back.** Take any expression whose operators and names the grammar knows, and its tokens, at whatever places. They are parsed, and what is parsed is the expression up to places and groupings. In any session it has the same value, or the same fault at another place, and leaves the same session. -/
theorem written_expressions_read_back (wrapped : Expr → Bool) {e : Expr} (h : e.Writable) {ts : List Token}
    (hts : (e.tokens wrapped).Forall₂ Token.Alike ts) :
    ∃ e', parseExpression ts = .ok e' ∧ e'.ungrouped.Alike e.ungrouped ∧
      ∀ s : Session, ResultsAlike Eq (e'.eval s).result (e.eval s).result ∧
        (e'.eval s).session = (e.eval s).session := by
  obtain ⟨read, hderives, hsame⟩ := (Expr.renders_tokens wrapped h).1
  have hparse := parseExpression_alike hts
  rw [parseExpression_ok_iff.2 hderives] at hparse
  generalize hother : parseExpression ts = parsed at hparse
  cases hparse with
  | @ok _ e' halike =>
      have hsame' : e'.AmountsTo e := halike.amountsTo.symm.trans hsame
      exact ⟨e', rfl, hsame', hsame'.eval⟩

/-- A difference on the right of a difference, with an assignment in it of a number that is negated twice. -/
theorem written_expressions_read_back_right_nested :
    let minus : Token := ⟨.subtract, "-", ⟨1, ⟨0, 1⟩⟩, none⟩
    let x : Token := ⟨.identifier, "x", ⟨1, ⟨0, 1⟩⟩, none⟩
    let negated : Expr := .unary minus (.unary minus (.reference x) ⟨0, 1⟩) ⟨0, 1⟩
    let e : Expr := .binary (.reference x) minus
      (.binary (.literal .null ⟨0, 1⟩) minus (.assign x negated ⟨0, 1⟩) ⟨0, 1⟩) ⟨0, 1⟩
    let ts := e.tokens fun value => !value.isAtom
    ts.map Token.lexeme = ["x", "-", "(", "null", "-", "(", "x", "=", "(", "-", "(", "-", "x", ")", ")", ")", ")"] ∧
      ∃ e', parseExpression ts = .ok e' ∧ e'.ungrouped.Alike e.ungrouped ∧
        ∀ s : Session, ResultsAlike Eq (e'.eval s).result (e.eval s).result ∧
          (e'.eval s).session = (e.eval s).session := by
  intro minus x negated e ts
  have hwritable : e.Writable := by simp [e, negated, minus, x, Expr.Writable, joining]
  exact ⟨rfl, written_expressions_read_back _ hwritable (List.forall₂_same.2 fun t _ => ⟨rfl, rfl, rfl⟩)⟩

end Blockscript
