import Blockscript.Proofs.Scope.Lookup
import Blockscript.Proofs.Session.Causes

/-!
# What a failed text leaves behind

A run changes a binding of the global scope in two ways: by an assignment whose name is resolved to the global scope, and by a declaration outside of all blocks. What it has changed stays changed when it fails later, as nothing is taken back. So a variable of the global scope has the value that it had before a failed text, or one that was written on the way to the fault.
-/

namespace Blockscript

/-- The value to which the global scope binds a name. -/
def Session.global? (s : Session) (name : String) : Option Value :=
  s.store.get? .global name

/-! ### Steps that write -/

namespace Scope

theorem get?_global (other : String) (b : Bindings) : get? other .global [⟨.global, none, b⟩] = b.get? other := by
  rw [get?, if_pos rfl]
  cases b.get? other <;> rfl

theorem get?_global_insert (name other : String) (value : Value) (b : Bindings) :
    get? other .global [⟨.global, none, b.insert name value⟩] = get? other .global [⟨.global, none, b⟩] ∨
      name = other ∧ get? other .global [⟨.global, none, b.insert name value⟩] = some value := by
  rw [get?_global, get?_global, Bindings.get?_insert]
  by_cases hname : other = name
  · exact .inr ⟨hname.symm, if_pos hname⟩
  · exact .inl (if_neg hname)

/-- A scope with scopes below it is not the global one. -/
theorem get?_global_cons {scope : Scope} {depth : Nat} (numbered : scope.handle.index = depth + 1) (other : String)
    (older : List Scope) : get? other .global (scope :: older) = get? other .global older := by
  have hne : scope.handle ≠ .global := by
    intro heq
    rw [heq] at numbered
    cases numbered
  rw [get?, if_neg hne]

namespace Stacked

variable {current : Handle} {handles : List Handle} {scopes after : List Scope} {frames : Frames} {name : String}
  {value : Value}

theorem define?_global (h : Stacked (current :: handles) scopes frames)
    (hdefine : Scope.define? name value current scopes = some after) (other : String) :
    get? other .global after = get? other .global scopes ∨
      name = other ∧ current = .global ∧ get? other .global after = some value := by
  cases h with
  | @global b _ _ =>
      rw [Scope.define?, if_pos rfl] at hdefine
      obtain rfl := Option.some.inj hdefine
      obtain hsame | ⟨hname, hvalue⟩ := get?_global_insert name other value b
      · exact .inl hsame
      · exact .inr ⟨hname, rfl, hvalue⟩
  | inside numbered _ _ =>
      rw [Scope.define?, if_pos rfl] at hdefine
      obtain rfl := Option.some.inj hdefine
      exact .inl ((get?_global_cons numbered other _).trans (get?_global_cons numbered other _).symm)

theorem assign?_global (h : Stacked (current :: handles) scopes frames)
    (hassign : Scope.assign? name value current scopes = some after) (other : String) :
    get? other .global after = get? other .global scopes ∨
      name = other ∧ resolve? name current scopes = some .global ∧ get? other .global after = some value := by
  generalize hall : current :: handles = all at h
  induction h generalizing current handles after with
  | @global b frame _ =>
      obtain ⟨rfl, rfl⟩ := List.cons.inj hall
      rw [Scope.assign?, if_pos rfl] at hassign
      rw [resolve?, if_pos rfl]
      cases hbound : b.contains name with
      | false => simp [hbound] at hassign
      | true =>
          simp only [hbound] at hassign
          obtain rfl := Option.some.inj hassign
          obtain hsame | ⟨hname, hvalue⟩ := get?_global_insert name other value b
          · exact .inl hsame
          · exact .inr ⟨hname, rfl, hvalue⟩
  | @inside handle outer handles' scopes b frame frames numbered _ _ ih =>
      obtain ⟨rfl, rfl⟩ := List.cons.inj hall
      rw [Scope.assign?, if_pos rfl] at hassign
      rw [resolve?, if_pos rfl, get?_global_cons numbered]
      cases hbound : b.contains name with
      | true =>
          simp only [hbound] at hassign
          obtain rfl := Option.some.inj hassign
          exact .inl (get?_global_cons numbered other _)
      | false =>
          simp only [hbound] at hassign
          obtain ⟨rest, hrest, rfl⟩ := Option.map_eq_some_iff.1 hassign
          rw [get?_global_cons numbered]
          exact ih hrest rfl

end Stacked

end Scope

namespace Session.Realises

variable {s : Session} {handles : List Handle} {frames : Frames}

theorem global?_define (h : s.Realises handles frames) (name : String) (value : Value) (other : String) :
    (s.define name value).session.global? other = s.global? other ∨
      name = other ∧ s.current = .global ∧ (s.define name value).session.global? other = some value := by
  rw [Session.define, Store.define]
  cases hscopes : Scope.define? name value s.current s.store.scopes with
  | none => exact .inl rfl
  | some scopes => exact h.stacked_current.define?_global hscopes other

theorem global?_assign (h : s.Realises handles frames) (name : Token) (value : Value) (other : String) :
    (s.assign name value).session.global? other = s.global? other ∨
      name.lexeme = other ∧ s.store.resolve? s.current name.lexeme = some .global ∧
        (s.assign name value).session.global? other = some value := by
  rw [Session.assign, Store.assign, if_pos h.live_current]
  cases hscopes : Scope.assign? name.lexeme value s.current s.store.scopes with
  | none => exact .inl rfl
  | some scopes => exact h.stacked_current.assign?_global hscopes other

theorem global?_enter (h : s.Realises handles frames) (other : String) : s.enter.global? other = s.global? other := by
  have hindex : s.store.nextHandle.index = handles.tail.length + 1 := h.length_scopes
  exact Scope.get?_global_cons hindex other _

theorem global?_leave {inner outer : Handle} (h : s.Realises (inner :: outer :: handles) frames) (previous : Handle)
    (other : String) : (s.leave previous).global? other = s.global? other := by
  rw [(h.leave_eq previous).1]
  obtain ⟨⟨scopes, nextGeneration⟩, current⟩ := s
  obtain ⟨-, hstacked⟩ := h
  cases hstacked with
  | inside numbered _ _ => exact (Scope.get?_global_cons numbered other _).symm

end Session.Realises

/-! ### Runs that write -/

/-- What is changed by one run after another and not by the first is changed by the second. -/
theorem Run.global?_andThen {α β : Type} {r : Run α} {next : α → Session → Run β} {name : String} {value : Option Value}
    (hfirst : r.session.global? name ≠ value) (h : (r.andThen next).session.global? name = value) :
    ∃ v, r.result = .ok v ∧ (next v r.session).session.global? name = value := by
  cases hresult : r.result with
  | error fault =>
      rw [andThen_of_error hresult] at h
      exact absurd h hfirst
  | ok v =>
      rw [andThen_of_ok hresult] at h
      exact ⟨v, rfl, h⟩

theorem Run.session_andThen_ofExcept {α β : Type} (r : Run α) (f : α → Except Fault β) :
    (r.andThen fun value s => .ofExcept (f value) s).session = r.session := by
  cases hresult : r.result with
  | error fault => rw [andThen_of_error hresult]
  | ok value =>
      rw [andThen_of_ok hresult]
      rfl

namespace Node

/-- The session that is left when a node is run. -/
def after : Node → Session → Session
  | expr e, s => (e.eval s).session
  | stmt statement, s => (statement.exec s).session

/-- A node binds a name to a value in the global scope: it assigns a name that is resolved to that scope, or it declares the name there. -/
inductive Writes (name : String) (value : Value) : Node → Session → Prop
  | assign {t : Token} {inner : Expr} {span : Span} {s s' : Session} (operand : (inner.eval s).result = .ok value)
      (session : (inner.eval s).session = s') (named : t.lexeme = name)
      (resolved : s'.store.resolve? s'.current t.lexeme = some .global) :
      Writes name value (.expr (.assign t inner span)) s
  | declaration {t : Token} {initializer : Option Expr} {span : Span} {s : Session}
      (operand : (Expr.evalOptional initializer s).result = .ok value) (named : t.lexeme = name)
      (outermost : s.current = .global) :
      Writes name value (.stmt (.var t initializer span)) s

/-- The global scope binds a name to this value after a node is run, and did not before. -/
structure Changes (name : String) (value : Option Value) (node : Node) (s : Session) : Prop where
  realises : ∃ handles frames, s.Realises handles frames
  before : s.global? name ≠ value
  after : (node.after s).global? name = value

end Node

theorem Stmt.execAll_changes {program : List Stmt} {s : Session} {handles : List Handle} {frames : Frames}
    {name : String} {value : Option Value} (h : s.Realises handles frames) (hbefore : s.global? name ≠ value)
    (hafter : (Stmt.execAll program s).session.global? name = value) :
    ∃ stmt s', Turn program s stmt s' ∧ Node.Changes name value (.stmt stmt) s' := by
  induction program generalizing s frames with
  | nil => exact absurd hafter hbefore
  | cons stmt rest ih =>
      by_cases hfirst : (stmt.exec s).session.global? name = value
      · exact ⟨stmt, s, .first, ⟨handles, frames, h⟩, hbefore, hfirst⟩
      · rw [Stmt.execAll] at hafter
        obtain ⟨values, hvalues, hrest⟩ := Run.global?_andThen hfirst hafter
        rw [Run.andThen_done_map] at hrest
        obtain ⟨frames', hrealises⟩ := (stmt.exec_tidy h).realises
        obtain ⟨later, s', hturn, hchanges⟩ := ih hrealises hfirst hrest
        exact ⟨later, s', .later hvalues hturn, hchanges⟩

namespace Node.Changes

variable {name : String} {value : Option Value} {s : Session}

/-- An assignment that changes the global scope writes to it, unless its value has made the change already. -/
theorem of_assign {t : Token} {inner : Expr} {span : Span} (h : Changes name value (.expr (.assign t inner span)) s) :
    (∃ v, value = some v ∧ Writes name v (.expr (.assign t inner span)) s) ∨ Changes name value (.expr inner) s := by
  obtain ⟨⟨handles, frames, hrealises⟩, hbefore, hafter⟩ := h
  by_cases hinner : (inner.eval s).session.global? name = value
  · exact .inr ⟨⟨handles, frames, hrealises⟩, hbefore, hinner⟩
  · obtain ⟨frames', hrealises'⟩ := (inner.eval_tidy hrealises).realises
    obtain ⟨v, hv, hassigned⟩ := Run.global?_andThen hinner hafter
    obtain hsame | ⟨hname, hresolved, hwritten⟩ := hrealises'.global?_assign t v name
    · exact absurd (hsame.symm.trans hassigned) hinner
    · exact .inl ⟨v, hassigned.symm.trans hwritten, .assign hv rfl hname hresolved⟩

theorem of_declaration {t : Token} {initializer : Option Expr} {span : Span}
    (h : Changes name value (.stmt (.var t initializer span)) s) :
    (∃ v, value = some v ∧ Writes name v (.stmt (.var t initializer span)) s) ∨
      ∃ e, initializer = some e ∧ Changes name value (.expr e) s := by
  obtain ⟨⟨handles, frames, hrealises⟩, hbefore, hafter⟩ := h
  by_cases hvalue : (Expr.evalOptional initializer s).session.global? name = value
  · cases initializer with
    | none => exact absurd hvalue hbefore
    | some e => exact .inr ⟨e, rfl, ⟨handles, frames, hrealises⟩, hbefore, hvalue⟩
  · obtain ⟨frames', hrealises'⟩ := (Expr.evalOptional_tidy initializer hrealises).realises
    obtain ⟨v, hv, hdefined⟩ := Run.global?_andThen hvalue hafter
    rw [Run.andThen_done_map] at hdefined
    obtain hsame | ⟨hname, houtermost, hwritten⟩ := hrealises'.global?_define t.lexeme v name
    · exact absurd (hsame.symm.trans hdefined) hvalue
    · have hcurrent := Option.some.inj (hrealises.current.symm.trans hrealises'.current)
      exact .inl ⟨v, hdefined.symm.trans hwritten, .declaration hv hname (hcurrent.trans houtermost)⟩

theorem of_binary {left right : Expr} {operator : Token} {span : Span}
    (h : Changes name value (.expr (.binary left operator right span)) s) :
    Changes name value (.expr left) s ∨
      ∃ a, (left.eval s).result = .ok a ∧ Changes name value (.expr right) (left.eval s).session := by
  obtain ⟨⟨handles, frames, hrealises⟩, hbefore, hafter⟩ := h
  by_cases hleft : (left.eval s).session.global? name = value
  · exact .inl ⟨⟨handles, frames, hrealises⟩, hbefore, hleft⟩
  · obtain ⟨a, ha, hright⟩ := Run.global?_andThen hleft hafter
    rw [Run.session_andThen_ofExcept] at hright
    obtain ⟨frames', hrealises'⟩ := (left.eval_tidy hrealises).realises
    exact .inr ⟨a, ha, ⟨handles, frames', hrealises'⟩, hleft, hright⟩

theorem of_block {body : List Stmt} {span : Span} (h : Changes name value (.stmt (.block body span)) s) :
    ∃ stmt s', Stmt.Turn body s.enter stmt s' ∧ Changes name value (.stmt stmt) s' := by
  obtain ⟨⟨handles, frames, hrealises⟩, hbefore, hafter⟩ := h
  obtain ⟨frames', hinner⟩ := (Stmt.execAll_tidy body hrealises.enter).realises
  rw [← List.cons_head?_tail hrealises.current] at hinner
  change (Stmt.exec (.block body span) s).session.global? name = value at hafter
  rw [Stmt.exec, hinner.global?_leave] at hafter
  rw [← hrealises.global?_enter] at hbefore
  exact Stmt.execAll_changes hrealises.enter hbefore hafter

/-- What a node changes it writes itself, or a node changes it that is run right below. -/
theorem cases (node : Node) (s : Session) (h : node.Changes name value s) :
    (∃ v, value = some v ∧ node.Writes name v s) ∨ ∃ child s', node.Runs s child s' ∧ child.Changes name value s' := by
  cases node with
  | expr e =>
      cases e with
      | literal _ span => exact absurd h.after h.before
      | grouping inner span => exact .inr ⟨_, _, .grouping, h.realises, h.before, h.after⟩
      | unary operator right span =>
          have hafter : ((right.eval s).andThen _).session.global? name = value := h.after
          rw [Run.session_andThen_ofExcept] at hafter
          exact .inr ⟨_, _, .operand, h.realises, h.before, hafter⟩
      | binary left operator right span =>
          obtain hleft | ⟨a, ha, hright⟩ := h.of_binary
          · exact .inr ⟨_, _, .left, hleft⟩
          · exact .inr ⟨_, _, .right ha, hright⟩
      | reference t =>
          have hafter : (Expr.eval (.reference t) s).session.global? name = value := h.after
          rw [Expr.eval] at hafter
          split at hafter <;> exact absurd hafter h.before
      | assign t inner span =>
          obtain hwrites | hinner := h.of_assign
          · exact .inl hwrites
          · exact .inr ⟨_, _, .value, hinner⟩
  | stmt statement =>
      cases statement with
      | expression e span =>
          have hafter : ((e.eval s).andThen _).session.global? name = value := h.after
          rw [Run.andThen_done_map] at hafter
          exact .inr ⟨_, _, .expression, h.realises, h.before, hafter⟩
      | var t initializer span =>
          obtain hwrites | ⟨e, rfl, he⟩ := h.of_declaration
          · exact .inl hwrites
          · exact .inr ⟨_, _, .initializer, he⟩
      | block body span =>
          obtain ⟨stmt, s', hturn, hstmt⟩ := h.of_block
          exact .inr ⟨_, _, .block hturn, hstmt⟩

end Node.Changes

/-- A binding of the global scope that a run has changed was written by a node that the run came to. -/
theorem Node.exists_writes {program : List Stmt} {s : Session} {handles : List Handle} {frames : Frames} {name : String}
    {value : Option Value} (h : s.Realises handles frames) (hbefore : s.global? name ≠ value)
    (hafter : (Stmt.execAll program s).session.global? name = value) :
    ∃ node s', Visited program s node s' ∧ ∃ v, value = some v ∧ node.Writes name v s' := by
  obtain ⟨stmt, s', hturn, hchanges⟩ := Stmt.execAll_changes h hbefore hafter
  exact Visited.exists_source Changes.cases (.root hturn) hchanges

theorem Session.Reached.realises_global {s : Session} (h : Reached 0 s) : ∃ frames, s.Realises [.global] frames := by
  obtain ⟨handles, frames, hrealises, hlength⟩ := h.realises
  refine ⟨frames, ?_⟩
  have hstacked := hrealises.stacked
  generalize s.store.scopes = scopes at hstacked
  cases hstacked with
  | global _ => exact hrealises
  | inside _ _ _ => simp at hlength

/-- **Failed texts take nothing back.** Texts are interpreted one after another, and the next one fails. If it is not read or not parsed, the session stays as it was. In any case every variable that the global scope bound is still bound. It has the value that it had, unless the text has come to an assignment or a declaration that wrote another one before the fault. -/
theorem failed_texts_keep_unwritten_bindings (sources : List String) (source : String) {fault : Fault}
    (h : ((Session.fresh.interpretAll sources).interpret source).result = .error fault) :
    let before := Session.fresh.interpretAll sources
    let after := (before.interpret source).session
    before.current = .global ∧ after.current = .global ∧ (fault.stage ≠ .evaluation → after = before) ∧
      ∀ name value, before.global? name = some value → ∃ value', after.global? name = some value' ∧
        (value' = value ∨ ∃ ts program node s', scan source = .ok ts ∧ parseProgram ts = .ok program ∧
          Node.Visited program before node s' ∧ node.Writes name value' s') := by
  intro before after
  have hreached := Session.Reached.fresh.interpretAll sources
  obtain ⟨frames, hrealises⟩ := hreached.realises_global
  obtain ⟨frames', hrealises'⟩ := (hreached.interpret source).realises_global
  refine ⟨(Option.some.inj hrealises.current).symm, (Option.some.inj hrealises'.current).symm, ?_⟩
  obtain ⟨_, _, _, hsession⟩ | ⟨ts, program, hscan, hparse, hresult, hsession⟩ := before.interpret_outcome source
  · refine ⟨fun _ => hsession, ?_⟩
    intro name value hvalue
    exact ⟨value, (congrArg (Session.global? · name) hsession).trans hvalue, .inl rfl⟩
  · refine ⟨?_, ?_⟩
    · intro hstage
      obtain ⟨node, s', -, hraises⟩ := Node.exists_raises (hresult.symm.trans h)
      exact absurd hraises.stage hstage
    · intro name value hvalue
      have hafter : (Stmt.execAll program before).session.global? name = after.global? name :=
        congrArg (Session.global? · name) hsession.symm
      by_cases hsame : after.global? name = some value
      · exact ⟨value, hsame, .inl rfl⟩
      · have hchanged : before.global? name ≠ after.global? name := by
          rw [hvalue]
          exact Ne.symm hsame
        obtain ⟨node, s', hvisited, value', hvalue', hwrites⟩ := Node.exists_writes hrealises hchanged hafter
        exact ⟨value', hvalue', .inr ⟨ts, program, node, s', hscan, hparse, hvisited, hwrites⟩⟩

/-- A block assigns a variable around it. The assignment stays although the text fails behind the block. -/
theorem failed_text_keeps_assignment :
    ((Session.fresh.interpretAll ["var x;"]).interpret "\x7bx = true;\x7d -null").result =
        .error (.invalidType ⟨1, ⟨12, 13⟩⟩ "-" [.null]) ∧
      (Session.fresh.interpretAll ["var x;"]).global? "x" = some .null ∧
      ∃ ts program node s', scan "\x7bx = true;\x7d -null" = .ok ts ∧ parseProgram ts = .ok program ∧
        Node.Visited program (Session.fresh.interpretAll ["var x;"]) node s' ∧ node.Writes "x" (.bool true) s' := by
  have hresult : ((Session.fresh.interpretAll ["var x;"]).interpret "\x7bx = true;\x7d -null").result =
      .error (.invalidType ⟨1, ⟨12, 13⟩⟩ "-" [.null]) := by decide +kernel
  have hbefore : (Session.fresh.interpretAll ["var x;"]).global? "x" = some .null := by decide +kernel
  have hafter : ((Session.fresh.interpretAll ["var x;"]).interpret "\x7bx = true;\x7d -null").session.global? "x" =
      some (.bool true) := by decide +kernel
  obtain ⟨-, -, -, hbindings⟩ := failed_texts_keep_unwritten_bindings ["var x;"] _ hresult
  obtain ⟨value, hvalue, hwritten⟩ := hbindings "x" .null hbefore
  obtain rfl : value = .bool true := Option.some.inj (hvalue.symm.trans hafter)
  obtain hsame | hwritten := hwritten
  · cases hsame
  · exact ⟨hresult, hbefore, hwritten⟩

/-- A text that fails can leave a variable with another value. -/
theorem failed_text_changes_binding :
    ((Session.fresh.interpretAll ["var x = true;"]).interpret "x = null; -x").result =
        .error (.invalidType ⟨1, ⟨10, 11⟩⟩ "-" [.null]) ∧
      (Session.fresh.interpretAll ["var x = true;"]).global? "x" = some (.bool true) ∧
      ((Session.fresh.interpretAll ["var x = true;"]).interpret "x = null; -x").session.global? "x" = some .null := by
  refine ⟨?_, ?_, ?_⟩ <;> decide +kernel

end Blockscript
