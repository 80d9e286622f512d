import Blockscript.Proofs.Session.Balance
import Blockscript.Proofs.Session.Visits

/-!
# The causes of faults

A fault is raised by a node that a run comes to, which has the values it needs and does not accept them. It cites the operator or the name of that node. As this is a token, it stands in the source at its place and spells the kind of operation, and the expressions around it stand before and behind it.
-/

namespace Blockscript

open Grammar Scan

/-! ### What raises a fault -/

theorem Run.error_of_andThen {α β : Type} {r : Run α} {next : α → Session → Run β} {fault : Fault}
    (h : (r.andThen next).result = .error fault) :
    r.result = .error fault ∨ ∃ value, r.result = .ok value ∧ (next value r.session).result = .error fault := by
  cases hresult : r.result with
  | error fault' =>
      rw [andThen_of_error hresult] at h
      obtain rfl := Except.error.inj h
      exact .inl rfl
  | ok value =>
      rw [andThen_of_ok hresult] at h
      exact .inr ⟨value, rfl, h⟩

theorem Stmt.execAll_error {program : List Stmt} {s : Session} {fault : Fault}
    (h : (Stmt.execAll program s).result = .error fault) :
    ∃ stmt s', Turn program s stmt s' ∧ (stmt.exec s').result = .error fault := by
  induction program generalizing s with
  | nil => cases h
  | cons stmt rest ih =>
      rw [Stmt.execAll] at h
      rcases Run.error_of_andThen h with hfirst | ⟨values, hvalues, hrest⟩
      · exact ⟨stmt, s, .first, hfirst⟩
      · rcases Run.error_of_andThen hrest with hrest | ⟨more, -, hdone⟩
        · obtain ⟨later, s', hturn, hlater⟩ := ih hrest
          exact ⟨later, s', .later hvalues hturn, hlater⟩
        · cases hdone

theorem Session.refused_of_define {s : Session} {name : String} {value : Value} {fault : Fault}
    (h : (s.define name value).result = .error fault) : s.store.define s.current name value = .error fault := by
  rw [define] at h
  cases hstore : s.store.define s.current name value with
  | ok store =>
      rw [hstore] at h
      cases h
  | error refused =>
      rw [hstore] at h
      exact congrArg Except.error (Except.error.inj h)

theorem Session.refused_of_assign {s : Session} {name : Token} {value : Value} {fault : Fault}
    (h : (s.assign name value).result = .error fault) : s.store.assign s.current name value = .error fault := by
  rw [assign] at h
  cases hstore : s.store.assign s.current name value with
  | ok store =>
      rw [hstore] at h
      cases h
  | error refused =>
      rw [hstore] at h
      exact congrArg Except.error (Except.error.inj h)

namespace Node

/-- Running a node ends with a fault. -/
def Fails (fault : Fault) : Node → Session → Prop
  | expr e, s => (e.eval s).result = .error fault
  | stmt statement, s => (statement.exec s).result = .error fault

/-- A node has the values that it needs, and does not accept them. -/
inductive Raises (fault : Fault) : Node → Session → Prop
  | unary {operator : Token} {right : Expr} {span : Span} {s : Session} {value : Value}
      (operand : (right.eval s).result = .ok value) (refused : Operator.applyUnary operator value = .error fault) :
      Raises fault (.expr (.unary operator right span)) s
  | binary {left : Expr} {operator : Token} {right : Expr} {span : Span} {s : Session} {a b : Value}
      (first : (left.eval s).result = .ok a) (second : (right.eval (left.eval s).session).result = .ok b)
      (refused : Operator.applyBinary operator a b = .error fault) :
      Raises fault (.expr (.binary left operator right span)) s
  | assign {name : Token} {inner : Expr} {span : Span} {s after : Session} {value : Value}
      (operand : (inner.eval s).result = .ok value) (session : (inner.eval s).session = after)
      (refused : after.store.assign after.current name value = .error fault) :
      Raises fault (.expr (.assign name inner span)) s
  | declaration {name : Token} {initializer : Option Expr} {span : Span} {s after : Session} {value : Value}
      (operand : (Expr.evalOptional initializer s).result = .ok value)
      (session : (Expr.evalOptional initializer s).session = after)
      (refused : after.store.define after.current name.lexeme value = .error fault) :
      Raises fault (.stmt (.var name initializer span)) s

theorem Fails.cases {fault : Fault} (node : Node) (s : Session) (h : node.Fails fault s) :
    node.Raises fault s ∨ ∃ child s', node.Runs s child s' ∧ child.Fails fault s' := by
  cases node with
  | expr e =>
      change (e.eval s).result = .error fault at h
      cases e with
      | literal value span => cases h
      | grouping inner span => exact .inr ⟨_, _, .grouping, h⟩
      | unary operator right span =>
          rcases Run.error_of_andThen h with hright | ⟨value, hvalue, hrefused⟩
          · exact .inr ⟨_, _, .operand, hright⟩
          · exact .inl (.unary hvalue hrefused)
      | binary left operator right span =>
          rcases Run.error_of_andThen h with hleft | ⟨a, ha, h⟩
          · exact .inr ⟨_, _, .left, hleft⟩
          · rcases Run.error_of_andThen h with hright | ⟨b, hb, hrefused⟩
            · exact .inr ⟨_, _, .right ha, hright⟩
            · exact .inl (.binary ha hb hrefused)
      | reference name =>
          rw [Expr.eval] at h
          split at h <;> cases h
      | assign name inner span =>
          rcases Run.error_of_andThen h with hinner | ⟨value, hvalue, h⟩
          · exact .inr ⟨_, _, .value, hinner⟩
          · exact .inl (.assign hvalue rfl (Session.refused_of_assign h))
  | stmt stmt =>
      change (stmt.exec s).result = .error fault at h
      cases stmt with
      | expression e span =>
          rcases Run.error_of_andThen h with he | ⟨value, -, hdone⟩
          · exact .inr ⟨_, _, .expression, he⟩
          · cases hdone
      | var name initializer span =>
          rw [Stmt.exec] at h
          rcases Run.error_of_andThen h with hvalue | ⟨value, hvalue, h⟩
          · cases initializer with
            | none => cases hvalue
            | some e => exact .inr ⟨_, _, .initializer, hvalue⟩
          · rcases Run.error_of_andThen h with hdefine | ⟨_, -, hdone⟩
            · exact .inl (.declaration hvalue rfl (Session.refused_of_define hdefine))
            · cases hdone
      | block body span =>
          obtain ⟨inner, s', hturn, hinner⟩ := Stmt.execAll_error h
          exact .inr ⟨_, _, .block hturn, hinner⟩

/-- A fault of a run is raised by a node that the run comes to. -/
theorem exists_raises {program : List Stmt} {s : Session} {fault : Fault}
    (h : (Stmt.execAll program s).result = .error fault) : ∃ node s', Visited program s node s' ∧ node.Raises fault s' := by
  obtain ⟨stmt, s', hturn, hfails⟩ := Stmt.execAll_error h
  exact Visited.exists_source Fails.cases (.root hturn) hfails

end Node

/-! ### Tokens of operations -/

namespace Grammar.Derives

variable {stratum : Stratum} {ts : List Token} {operator name : Token} {left right inner : Expr} {span : Span}

theorem of_unary (h : Derives stratum ts (.unary operator right span)) :
    ∃ rs, ts = operator :: rs ∧ (operator.kind = .not ∨ operator.kind = .subtract) ∧ Derives .unary rs right := by
  generalize hexpr : Expr.unary operator right span = e at h
  induction h with
  | loosest _ ih | operand _ _ ih | tightest _ ih => exact ih hexpr
  | unary sign right _ =>
      cases hexpr
      exact ⟨_, rfl, sign, right⟩
  | _ => cases hexpr

theorem of_binary (h : Derives stratum ts (.binary left operator right span)) :
    ∃ level operators next ls rs, Joins level operators next ∧ ts = ls ++ operator :: rs ∧ operator.kind ∈ operators ∧
      Derives (.chain level) ls left ∧ Derives next rs right := by
  generalize hexpr : Expr.binary left operator right span = e at h
  induction h with
  | loosest _ ih | operand _ _ ih | tightest _ ih => exact ih hexpr
  | binary joins left sign right _ _ =>
      cases hexpr
      exact ⟨_, _, _, _, _, joins, rfl, sign, left, right⟩
  | _ => cases hexpr

theorem of_assign (h : Derives stratum ts (.assign name inner span)) : name ∈ ts := by
  generalize hexpr : Expr.assign name inner span = e at h
  induction h with
  | loosest _ ih | operand _ _ ih | tightest _ ih => exact ih hexpr
  | assign _ _ _ _ =>
      cases hexpr
      exact List.mem_cons_self
  | _ => cases hexpr

end Grammar.Derives

/-- The kinds of operators that stand between operands. -/
def Grammar.joining : List Kind :=
  [.or, .equivalent, .notEqual, .greaterThan, .greaterEqual, .lessThan, .lessEqual, .subtract, .add, .divide, .multiply]

theorem Grammar.Joins.mem_joining {level : Level} {operators : List Kind} {next : Stratum} {kind : Kind}
    (h : Joins level operators next) (hkind : kind ∈ operators) : kind ∈ joining := by
  have hsub : operators ⊆ joining := by cases h <;> decide
  exact hsub hkind

/-- A token of the kind of a sign has the text of that sign. -/
theorem Scan.Spells.mem_signs {text : List Char} {kind : Kind} {literal : Option Value}
    (h : Spells text (.token kind literal)) (hkind : kind ∈ signs.map Prod.snd) : (text, kind) ∈ signs := by
  generalize hcontent : Content.token kind literal = content at h
  cases h with
  | space _ | comment _ | commentLine _ => cases hcontent
  | sign listed =>
      cases hcontent
      exact listed
  | string _ | whole _ _ | fraction _ _ _ | name _ _ _ =>
      cases hcontent
      exact absurd hkind (by decide)
  | keyword listed =>
      cases hcontent
      have hwords : ∀ entry ∈ keywords, entry.2 ∉ signs.map Prod.snd := by decide
      exact absurd hkind (hwords _ listed)

namespace Operator

/-- Operands that an operator does not accept: the negation of what is no number, an operation on numbers with something else, and a sum that is neither one of numbers nor joins a string. -/
inductive Misapplied : String → List Value → Prop
  | negation {right : Value} (h : right.number? = none) : Misapplied "-" [right]
  | arithmetic {operator : String} {left right : Value} (listed : operator ∈ ["-", "*", "/", "<", "<=", ">", ">="])
      (h : left.number? = none ∨ right.number? = none) : Misapplied operator [left, right]
  | sum {left right : Value} (unjoined : left.isString = false ∧ right.isString = false)
      (h : left.number? = none ∨ right.number? = none) : Misapplied "+" [left, right]

theorem Misapplied.not_mem {operator : String} {operands : List Value} (h : Misapplied operator operands) :
    operator ∉ ["!", "==", "!=", "|"] := by
  cases h with
  | negation _ | sum _ _ => decide
  | arithmetic listed _ =>
      have hlisted : ∀ text ∈ ["-", "*", "/", "<", "<=", ">", ">="], text ∉ ["!", "==", "!=", "|"] := by decide
      exact hlisted _ listed

variable {operator : Token} {left right : Value} {fault : Fault} {source : String}

theorem applyUnary_misapplied (hstands : operator.Stands source)
    (hkind : operator.kind = .not ∨ operator.kind = .subtract) (h : applyUnary operator right = .error fault) :
    Misapplied operator.lexeme [right] := by
  unfold applyUnary at h
  rcases hkind with hkind | hkind
  · rw [hkind] at h
    cases h
  · have hsign := hstands.spelled.mem_signs (by rw [hkind]; decide)
    have htext : ∀ entry ∈ signs, entry.2 = .subtract → String.ofList entry.1 = "-" := by decide
    have hlexeme : operator.lexeme = "-" := by simpa using htext _ hsign hkind
    rw [hlexeme]
    rw [hkind] at h
    cases right with
    | number x => cases h
    | _ => exact .negation rfl

theorem add_misapplied (h : add operator left right = .error fault) : Misapplied "+" [left, right] := by
  unfold add at h
  cases hstring : left.isString || right.isString with
  | true =>
      rw [hstring, if_pos rfl] at h
      cases h
  | false =>
      rw [hstring, if_neg Bool.false_ne_true] at h
      refine .sum (Bool.or_eq_false_iff.1 hstring) ?_
      cases left with
      | number x =>
          cases right with
          | number y => cases h
          | _ => exact .inr rfl
      | _ => exact .inl rfl

/-- The kinds of operators that are for numbers only. -/
def numeric : List Kind :=
  [.subtract, .multiply, .divide, .lessThan, .lessEqual, .greaterThan, .greaterEqual]

theorem calculate_error_operand (hkind : operator.kind ∈ numeric) (h : calculate operator left right = .error fault) :
    left.number? = none ∨ right.number? = none := by
  cases left with
  | number x =>
      cases right with
      | number y =>
          have hvalue : ∀ kind ∈ numeric, ∃ value, arithmetic? kind x y = some value := by
            simp [numeric, arithmetic?]
          obtain ⟨value, hvalue⟩ := hvalue _ hkind
          rw [calculate, hvalue] at h
          cases h
      | _ => exact .inr rfl
  | _ => exact .inl rfl

theorem applyBinary_misapplied (hstands : operator.Stands source) (hkind : operator.kind ∈ joining)
    (h : applyBinary operator left right = .error fault) : Misapplied operator.lexeme [left, right] := by
  have hsigns : ∀ kind ∈ joining, kind ∈ signs.map Prod.snd := by decide
  have hsign := hstands.spelled.mem_signs (hsigns _ hkind)
  unfold applyBinary at h
  split at h
  · next hadd =>
      have htext : ∀ entry ∈ signs, entry.2 = .add → String.ofList entry.1 = "+" := by decide
      have hlexeme : operator.lexeme = "+" := by simpa using htext _ hsign hadd
      rw [hlexeme]
      exact add_misapplied h
  · cases h
  · cases h
  · cases h
  · next hadd hequivalent hnotEqual hor =>
      have hrest : ∀ kind ∈ joining, kind ≠ .add → kind ≠ .equivalent → kind ≠ .notEqual → kind ≠ .or →
          kind ∈ numeric := by decide
      have hnumeric := hrest _ hkind hadd hequivalent hnotEqual hor
      have htext : ∀ entry ∈ signs, entry.2 ∈ numeric →
          String.ofList entry.1 ∈ ["-", "*", "/", "<", "<=", ">", ">="] := by decide
      have hlexeme := htext _ hsign hnumeric
      rw [String.ofList_toList] at hlexeme
      exact .arithmetic hlexeme (calculate_error_operand hnumeric h)

end Operator

theorem Scope.get?_eq_none_of_assign? {name : String} {value : Value} {handle : Handle} {scopes : List Scope}
    (h : assign? name value handle scopes = none) : get? name handle scopes = none := by
  induction scopes generalizing handle with
  | nil => rfl
  | cons scope older ih =>
      rw [assign?] at h
      rw [get?]
      by_cases hhandle : scope.handle = handle
      · rw [if_pos hhandle, Bindings.contains] at h
        rw [if_pos hhandle]
        cases hbound : scope.bindings.get? name with
        | some value => simp [hbound] at h
        | none =>
            cases henclosing : scope.enclosing with
            | none => rfl
            | some outer =>
                simp only [hbound, henclosing, Option.isSome_none, Option.map_eq_none_iff] at h
                exact ih h
      · rw [if_neg hhandle] at h ⊢
        exact ih (Option.map_eq_none_iff.1 h)

theorem Store.assign_error {st : Store} {handle : Handle} {name : Token} {value : Value} {fault : Fault}
    (h : st.assign handle name value = .error fault) :
    fault = .releasedScope ∨ fault = .undefinedVariable name.place name.lexeme ∧ st.get? handle name.lexeme = none := by
  rw [Store.assign] at h
  split at h
  · split at h
    · cases h
    · next hnone => exact .inr ⟨(Except.error.inj h).symm, Scope.get?_eq_none_of_assign? hnone⟩
  · exact .inl (Except.error.inj h).symm

theorem Store.define_error {st : Store} {handle : Handle} {name : String} {value : Value} {fault : Fault}
    (h : st.define handle name value = .error fault) : fault = .releasedScope := by
  rw [Store.define] at h
  split at h
  · cases h
  · exact (Except.error.inj h).symm

theorem Node.Raises.stage {node : Node} {s : Session} {fault : Fault} (h : node.Raises fault s) :
    fault.stage = .evaluation := by
  cases h with
  | unary _ refused =>
      rw [Operator.applyUnary_error refused]
      rfl
  | binary _ _ refused =>
      rw [Operator.applyBinary_error refused]
      rfl
  | assign _ _ refused => obtain rfl | ⟨rfl, -⟩ := Store.assign_error refused <;> rfl
  | declaration _ _ refused =>
      rw [Store.define_error refused]
      rfl

/-! ### Places of faults -/

/-- A place holds a text of the source, on the line on which it begins. -/
structure Place.Cites (place : Place) (source text : String) : Prop where
  nonempty : place.span.start < place.span.stop
  inside : place.span.stop ≤ source.length
  line : place.line = 1 + linesBefore source place.span.start
  excerpt : excerpt source place.span = text

theorem Token.Stands.cites {t : Token} {source : String} (h : t.Stands source) : t.place.Cites source t.lexeme :=
  ⟨h.nonempty, h.inside, h.line, h.lexeme.symm⟩

theorem Ordered.stop_le_cover {t : Token} {ts : List Token} (h : Ordered (t :: ts)) (hts : ts ≠ []) :
    t.span.stop ≤ (cover ts).start := by
  have hsplit : Ordered ([t] ++ ts) := h
  have hcover := hsplit.cover_before (by simp) hts (List.Subset.refl ts)
  rwa [cover_singleton] at hcover

namespace Node

variable {source : String} {ts : List Token} {program : List Stmt} {operator name : Token} {left right inner : Expr}
  {span : Span} {s : Session}

theorem Occurs.unary_stands (h : Occurs program (.expr (.unary operator right span))) (hscan : scan source = .ok ts)
    (hparse : parseProgram ts = .ok program) :
    operator.Stands source ∧ (operator.kind = .not ∨ operator.kind = .subtract) ∧
      operator.span.stop ≤ right.span.start := by
  obtain ⟨before, ps, after, rfl, hfrom⟩ := h.exists_from hparse
  obtain ⟨rs, rfl, hkind, hright⟩ := Derives.of_unary hfrom
  have hordered : Ordered (operator :: rs) := (scan_ordered hscan).1.left.right
  refine ⟨scan_stands hscan operator (by simp), hkind, ?_⟩
  rw [hright.span_eq]
  exact hordered.stop_le_cover hright.ne_nil

theorem Occurs.binary_stands (h : Occurs program (.expr (.binary left operator right span)))
    (hscan : scan source = .ok ts) (hparse : parseProgram ts = .ok program) :
    operator.Stands source ∧ operator.kind ∈ joining ∧
      left.span.stop ≤ operator.span.start ∧ operator.span.stop ≤ right.span.start := by
  obtain ⟨before, ps, after, rfl, hfrom⟩ := h.exists_from hparse
  obtain ⟨level, operators, next, ls, rs, hjoins, rfl, hkind, hleft, hright⟩ := Derives.of_binary hfrom
  have hordered : Ordered (ls ++ operator :: rs) := (scan_ordered hscan).1.left.right
  refine ⟨scan_stands hscan operator (by simp), hjoins.mem_joining hkind, ?_, ?_⟩
  · rw [hleft.span_eq, ← cover_singleton]
    exact hordered.cover_before hleft.ne_nil (by simp) (by simp)
  · rw [hright.span_eq]
    exact hordered.right.stop_le_cover hright.ne_nil

theorem Occurs.assign_stands (h : Occurs program (.expr (.assign name inner span))) (hscan : scan source = .ok ts)
    (hparse : parseProgram ts = .ok program) : name.Stands source := by
  obtain ⟨before, ps, after, rfl, hfrom⟩ := h.exists_from hparse
  have hname : name ∈ ps := Derives.of_assign hfrom
  exact scan_stands hscan name (by simp [hname])

/-- A run comes to an operator at this place. The operands are the values of the expressions around it, in the order of the source. -/
inductive Applied (program : List Stmt) (s : Session) (place : Place) : List Value → Prop
  | unary {operator : Token} {right : Expr} {span : Span} {s' : Session} {value : Value}
      (visited : Visited program s (.expr (.unary operator right span)) s') (here : operator.place = place)
      (behind : place.span.stop ≤ right.span.start) (operand : (right.eval s').result = .ok value) :
      Applied program s place [value]
  | binary {left : Expr} {operator : Token} {right : Expr} {span : Span} {s' : Session} {a b : Value}
      (visited : Visited program s (.expr (.binary left operator right span)) s') (here : operator.place = place)
      (before : left.span.stop ≤ place.span.start) (behind : place.span.stop ≤ right.span.start)
      (first : (left.eval s').result = .ok a) (second : (right.eval (left.eval s').session).result = .ok b) :
      Applied program s place [a, b]

/-- A run comes to an assignment to the name at this place, and no scope that is seen there binds it. -/
inductive Unbound (program : List Stmt) (s : Session) (place : Place) (name : String) : Prop
  | assign {t : Token} {inner : Expr} {span : Span} {s' after : Session} {value : Value}
      (visited : Visited program s (.expr (.assign t inner span)) s') (here : t.place = place)
      (operand : (inner.eval s').result = .ok value) (session : (inner.eval s').session = after)
      (unseen : after.store.get? after.current name = none) : Unbound program s place name

variable {node : Node} {s' : Session} {place : Place}

theorem Raises.cites_operator {text : String} {operands : List Value} (h : node.Raises (.invalidType place text operands) s')
    (hvisited : Visited program s node s') (hscan : scan source = .ok ts) (hparse : parseProgram ts = .ok program) :
    place.Cites source text ∧ Operator.Misapplied text operands ∧ Applied program s place operands := by
  cases h with
  | unary operand refused =>
      obtain ⟨hstands, hkind, hbehind⟩ := hvisited.occurs.unary_stands hscan hparse
      obtain ⟨rfl, rfl, rfl⟩ := Fault.invalidType.inj (Operator.applyUnary_error refused)
      exact ⟨hstands.cites, Operator.applyUnary_misapplied hstands hkind refused, .unary hvisited rfl hbehind operand⟩
  | binary first second refused =>
      obtain ⟨hstands, hkind, hbefore, hbehind⟩ := hvisited.occurs.binary_stands hscan hparse
      obtain ⟨rfl, rfl, rfl⟩ := Fault.invalidType.inj (Operator.applyBinary_error refused)
      exact ⟨hstands.cites, Operator.applyBinary_misapplied hstands hkind refused,
        .binary hvisited rfl hbefore hbehind first second⟩
  | assign _ _ refused => obtain hfault | ⟨hfault, -⟩ := Store.assign_error refused <;> cases hfault
  | declaration _ _ refused => cases Store.define_error refused

theorem Raises.cites_name {text : String} (h : node.Raises (.undefinedVariable place text) s')
    (hvisited : Visited program s node s') (hscan : scan source = .ok ts) (hparse : parseProgram ts = .ok program) :
    place.Cites source text ∧ Unbound program s place text := by
  cases h with
  | unary _ refused => cases Operator.applyUnary_error refused
  | binary _ _ refused => cases Operator.applyBinary_error refused
  | assign operand session refused =>
      obtain hfault | ⟨hfault, hunseen⟩ := Store.assign_error refused
      · cases hfault
      · obtain ⟨rfl, rfl⟩ := Fault.undefinedVariable.inj hfault
        have hstands := hvisited.occurs.assign_stands hscan hparse
        exact ⟨hstands.cites, .assign hvisited rfl operand session hunseen⟩
  | declaration _ _ refused => cases Store.define_error refused

end Node

/-- A fault of an interpreted text that is not one of its reading or parsing is raised by a node of its program. -/
theorem Session.interpret_raises {s : Session} {source : String} {fault : Fault} (hstage : fault.stage = .evaluation)
    (h : (s.interpret source).result = .error fault) :
    ∃ ts program, scan source = .ok ts ∧ parseProgram ts = .ok program ∧
      ∃ node s', Node.Visited program s node s' ∧ node.Raises fault s' := by
  obtain ⟨refusal, hrefusal, hresult, -⟩ | ⟨ts, program, hscan, hparse, hresult, -⟩ := s.interpret_outcome source
  · obtain rfl : fault = refusal := Except.error.inj (h.symm.trans hresult)
    exact absurd hstage hrefusal
  · exact ⟨ts, program, hscan, hparse, Node.exists_raises (hresult.symm.trans h)⟩

/-- **Faults cite their cause.** Whatever the session, a text that ends for the types of operands names the operator as it stands at the place of the fault, on the line on which it stands. A run came to that operator, which does not accept the values of the expressions around it. A text that ends for an undefined variable names in the same way a variable that it was to assign and that no scope bound. -/
theorem runtime_faults_cite_their_cause (s : Session) (source : String) :
    (∀ place operator operands, (s.interpret source).result = .error (.invalidType place operator operands) →
      place.Cites source operator ∧ Operator.Misapplied operator operands ∧ operator ∉ ["!", "==", "!=", "|"] ∧
      ∃ ts program, scan source = .ok ts ∧ parseProgram ts = .ok program ∧ Node.Applied program s place operands) ∧
    ∀ place name, (s.interpret source).result = .error (.undefinedVariable place name) →
      place.Cites source name ∧
      ∃ ts program, scan source = .ok ts ∧ parseProgram ts = .ok program ∧ Node.Unbound program s place name := by
  constructor
  · intro place operator operands h
    obtain ⟨ts, program, hscan, hparse, node, s', hvisited, hraises⟩ := Session.interpret_raises rfl h
    obtain ⟨hcites, hmisapplied, happlied⟩ := hraises.cites_operator hvisited hscan hparse
    exact ⟨hcites, hmisapplied, hmisapplied.not_mem, ts, program, hscan, hparse, happlied⟩
  · intro place name h
    obtain ⟨ts, program, hscan, hparse, node, s', hvisited, hraises⟩ := Session.interpret_raises rfl h
    obtain ⟨hcites, hunbound⟩ := hraises.cites_name hvisited hscan hparse
    exact ⟨hcites, ts, program, hscan, hparse, hunbound⟩

/-- The sign in the comment and the line breaks in strings are not in the way. -/
theorem comparison_behind_comment_cited :
    let comparison := "var a = \"\n\"; // -\n\x7btrue\n< a;\x7d"
    let assignment := "\"\n\"; b = a"
    ((Session.fresh.interpret comparison).result = .error (.invalidType ⟨4, ⟨24, 25⟩⟩ "<" [.bool true, .string "\n"]) ∧
      Place.Cites ⟨4, ⟨24, 25⟩⟩ comparison "<" ∧ Operator.Misapplied "<" [.bool true, .string "\n"]) ∧
    ((Session.fresh.interpretAll [comparison]).interpret assignment).result =
        .error (.undefinedVariable ⟨2, ⟨5, 6⟩⟩ "b") ∧
      Place.Cites ⟨2, ⟨5, 6⟩⟩ assignment "b" := by
  intro comparison assignment
  have hcomparison : (Session.fresh.interpret comparison).result =
      .error (.invalidType ⟨4, ⟨24, 25⟩⟩ "<" [.bool true, .string "\n"]) := by decide +kernel
  have hassignment : ((Session.fresh.interpretAll [comparison]).interpret assignment).result =
      .error (.undefinedVariable ⟨2, ⟨5, 6⟩⟩ "b") := by decide +kernel
  obtain ⟨hcites, hmisapplied, -⟩ := (runtime_faults_cite_their_cause .fresh comparison).1 _ _ _ hcomparison
  obtain ⟨hcites', -⟩ := (runtime_faults_cite_their_cause _ assignment).2 _ _ hassignment
  exact ⟨⟨hcomparison, hcites, hmisapplied⟩, hassignment, hcites'⟩

end Blockscript
