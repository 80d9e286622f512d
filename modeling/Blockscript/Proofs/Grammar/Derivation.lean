import Mathlib.Data.List.Basic
import Blockscript.Grammar.Expression

/-!
# The grammar of expressions

Expressions are derived in strata, from assignments down to literals, names and parentheses. A chain is an operand, or a chain, an operator of its level and an operand, so operations of one level group from the left; operands come from the next stratum, so tighter operators group first. An assignment groups from the right. A derivation uses up all of its tokens, and builds the tree with the places that the constructors compute.
-/

namespace Blockscript.Grammar

inductive Stratum where
  | assignment
  | chain (level : Level)
  | unary
  | primary
deriving DecidableEq

/-- The operators of a level, and the stratum of their operands. -/
inductive Joins : Level → List Kind → Stratum → Prop
  | or : Joins .or [.or] (.chain .equality)
  | equality : Joins .equality [.equivalent, .notEqual] (.chain .comparison)
  | comparison : Joins .comparison [.greaterThan, .greaterEqual, .lessThan, .lessEqual] (.chain .term)
  | term : Joins .term [.subtract, .add] (.chain .factor)
  | factor : Joins .factor [.divide, .multiply] .unary

/-- The value that a token stands for. A number or string carries it. -/
inductive Constant (t : Token) : Value → Prop
  | trueWord (kind : t.kind = .trueWord) : Constant t (.bool true)
  | falseWord (kind : t.kind = .falseWord) : Constant t (.bool false)
  | nullWord (kind : t.kind = .nullWord) : Constant t .null
  | number {value : Value} (kind : t.kind = .number) (literal : t.literal = some value) : Constant t value
  | string {value : Value} (kind : t.kind = .string) (literal : t.literal = some value) : Constant t value

inductive Derives : Stratum → List Token → Expr → Prop
  | assign {name equals : Token} {ts : List Token} {value : Expr} (target : name.kind = .identifier)
      (sign : equals.kind = .assign) (right : Derives .assignment ts value) :
      Derives .assignment (name :: equals :: ts) (.ofAssign name value)
  | loosest {ts : List Token} {e : Expr} (inner : Derives (.chain .or) ts e) : Derives .assignment ts e
  | operand {level : Level} {operators : List Kind} {next : Stratum} {ts : List Token} {e : Expr}
      (joins : Joins level operators next) (inner : Derives next ts e) : Derives (.chain level) ts e
  | binary {level : Level} {operators : List Kind} {next : Stratum} {ls rs : List Token}
      {op : Token} {l r : Expr} (joins : Joins level operators next) (left : Derives (.chain level) ls l)
      (sign : op.kind ∈ operators) (right : Derives next rs r) :
      Derives (.chain level) (ls ++ op :: rs) (.ofBinary l op r)
  | unary {op : Token} {ts : List Token} {e : Expr} (sign : op.kind = .not ∨ op.kind = .subtract)
      (right : Derives .unary ts e) : Derives .unary (op :: ts) (.ofUnary op e)
  | tightest {ts : List Token} {e : Expr} (inner : Derives .primary ts e) : Derives .unary ts e
  | literal {t : Token} {value : Value} (constant : Constant t value) :
      Derives .primary [t] (.literal value t.span)
  | name {t : Token} (kind : t.kind = .identifier) : Derives .primary [t] (.reference t)
  | grouping {opening closing : Token} {ts : List Token} {e : Expr} (opens : opening.kind = .leftParen)
      (closes : closing.kind = .rightParen) (inner : Derives .assignment ts e) :
      Derives .primary (opening :: ts ++ [closing]) (.grouping e (opening.span.through closing.span))

/-! ### The table of levels -/

theorem exists_joins (level : Level) : ∃ operators next, Joins level operators next := by
  cases level with
  | or => exact ⟨_, _, .or⟩
  | equality => exact ⟨_, _, .equality⟩
  | comparison => exact ⟨_, _, .comparison⟩
  | term => exact ⟨_, _, .term⟩
  | factor => exact ⟨_, _, .factor⟩

namespace Joins

variable {level : Level} {operators : List Kind} {next : Stratum}

theorem admits_iff (h : Joins level operators next) (kind : Kind) :
    level.admits kind = true ↔ kind ∈ operators := by
  cases h <;> cases kind <;> simp [Level.admits]

theorem next_eq (h : Joins level operators next) :
    next = match level.tighter with
      | some tighter => .chain tighter
      | none => .unary := by
  cases h <;> rfl

end Joins

/-! ### First tokens -/

theorem Constant.kind_mem {t : Token} {value : Value} (h : Constant t value) :
    t.kind ∈ [Kind.trueWord, .falseWord, .nullWord, .number, .string] := by
  cases h with
  | trueWord kind | falseWord kind | nullWord kind | number kind _ | string kind _ => simp [kind]

theorem forall_head {P : Token → Prop} {t : Token} {rest : List Token} (h : P t) :
    ∀ t' ∈ (t :: rest).head?, P t' := by
  intro t' ht'
  obtain rfl := Option.some.inj ht'
  exact h

theorem ne_of_startsExpression {kind other : Kind} (h : kind.startsExpression = true)
    (hother : other.startsExpression = false) : kind ≠ other := by
  rintro rfl
  rw [h] at hother
  cases hother

/-- Every derived expression begins as expressions do, whatever follows it. -/
theorem Derives.beginsExpression {stratum : Stratum} {ts : List Token} {e : Expr}
    (h : Derives stratum ts e) (rest : List Token) : beginsExpression (ts ++ rest) = true := by
  induction h generalizing rest with
  | assign target sign right ih =>
      show Kind.startsExpression _ = true
      rw [target]
      rfl
  | loosest inner ih => exact ih rest
  | operand joins inner ih => exact ih rest
  | binary joins left sign right ihleft ihright =>
      rw [List.append_assoc]
      exact ihleft _
  | unary sign right ih =>
      show Kind.startsExpression _ = true
      rcases sign with sign | sign <;> rw [sign] <;> rfl
  | tightest inner ih => exact ih rest
  | literal constant =>
      have hstarts : ∀ kind ∈ [Kind.trueWord, .falseWord, .nullWord, .number, .string],
          kind.startsExpression = true := by decide
      exact hstarts _ constant.kind_mem
  | name kind =>
      show Kind.startsExpression _ = true
      rw [kind]
      rfl
  | grouping opens closes inner ih =>
      show Kind.startsExpression _ = true
      rw [opens]
      rfl

theorem Derives.begins {stratum : Stratum} {ts : List Token} {e : Expr} (h : Derives stratum ts e)
    (rest : List Token) : ∀ t ∈ (ts ++ rest).head?, t.kind.startsExpression = true := by
  intro t ht
  have hbegins := h.beginsExpression rest
  obtain ⟨after, heq⟩ := List.head?_eq_some_iff.1 ht
  rw [heq] at hbegins
  exact hbegins

theorem Derives.ne_nil {stratum : Stratum} {ts : List Token} {e : Expr} (h : Derives stratum ts e) :
    ts ≠ [] := by
  rintro rfl
  have hbegins := h.beginsExpression []
  cases hbegins

end Blockscript.Grammar
