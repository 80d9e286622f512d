import Blockscript.Proofs.Scope.Lookup
import Blockscript.Proofs.Session.Balance
import Blockscript.Proofs.Session.Scoping

/-!
# What an evaluation changes

To a store the evaluation of an expression is a sequence of assignments. They are made from the scope of the evaluation, and each one is of a name that the expression assigns. A fault ends the sequence and takes nothing back. So what no assignment changes, no evaluation changes: which scopes there are, how they are linked, which names they bind, and the values of all other names.

In a scope that has ended there is not even an assignment. Every name reads as null there, and the first assignment that the evaluation comes to is refused.
-/

namespace Blockscript

open Relation

namespace Store

/-- An assignment of one of the given names from a scope. -/
def Assigns (scope : Handle) (names : Token → Prop) (st after : Store) : Prop :=
  ∃ name value, names name ∧ st.assign scope name value = .ok after

/-- Two stores differ at most in the values of the given names. -/
structure SameBut (names : Token → Prop) (st after : Store) : Prop where
  nextGeneration : after.nextGeneration = st.nextGeneration
  outlines : after.scopes.map Scope.outline = st.scopes.map Scope.outline
  live : ∀ handle, after.live handle = st.live handle
  get? : ∀ handle name, (∀ t, names t → t.lexeme ≠ name) → after.get? handle name = st.get? handle name

variable {st after : Store} {scope : Handle} {names : Token → Prop}

theorem WellFormed.of_assign (h : st.WellFormed) {name : Token} {value : Value}
    (hassign : st.assign scope name value = .ok after) :
    ∃ target, st.resolve? scope name.lexeme = some target ∧ after = st.bindAt target name.lexeme value := by
  obtain ⟨-, -, hrefused⟩ | ⟨-, -, hrefused⟩ | ⟨target, -, -, hresolve, hdone⟩ := h.assign_cases scope name value
  · rw [hrefused] at hassign
    cases hassign
  · rw [hrefused] at hassign
    cases hassign
  · rw [hdone] at hassign
    exact ⟨target, hresolve, (Except.ok.inj hassign).symm⟩

theorem WellFormed.assigns (h : st.WellFormed) (hassigns : Assigns scope names st after) :
    after.WellFormed ∧ SameBut names st after := by
  obtain ⟨name, value, hname, hassign⟩ := hassigns
  have houtline := assign_outline hassign
  obtain ⟨target, hresolve, rfl⟩ := h.of_assign hassign
  refine ⟨h.bindAt target name.lexeme value, rfl, houtline, ?_, ?_⟩
  · intro handle
    exact st.live_bindAt target handle name.lexeme value
  · intro handle other hother
    have hne : other ≠ name.lexeme := (hother name hname).symm
    rw [h.get?_bindAt_resolved hresolve, if_neg fun hread => hne hread.1]

theorem SameBut.trans {last : Store} (h : SameBut names st after) (h' : SameBut names after last) :
    SameBut names st last where
  nextGeneration := h'.nextGeneration.trans h.nextGeneration
  outlines := h'.outlines.trans h.outlines
  live handle := (h'.live handle).trans (h.live handle)
  get? handle name hname := (h'.get? handle name hname).trans (h.get? handle name hname)

theorem WellFormed.assigned (h : st.WellFormed) (hassigned : ReflTransGen (Assigns scope names) st after) :
    after.WellFormed ∧ SameBut names st after := by
  induction hassigned with
  | refl => exact ⟨h, rfl, rfl, fun _ => rfl, fun _ _ _ => rfl⟩
  | tail _ hlast ih =>
      obtain ⟨hmiddle, hbefore⟩ := ih
      obtain ⟨hafter, hsame⟩ := hmiddle.assigns hlast
      exact ⟨hafter, hbefore.trans hsame⟩

theorem eq_of_assigned (hnames : ∀ t, ¬names t) (hassigned : ReflTransGen (Assigns scope names) st after) :
    after = st := by
  induction hassigned with
  | refl => rfl
  | tail _ hlast _ =>
      obtain ⟨name, _, hname, -⟩ := hlast
      exact absurd hname (hnames name)

end Store

/-! ### Evaluations -/

/-- A run has done nothing to the store of a session but to assign some of the given names from its current scope. -/
structure Run.AssignsOnly {α : Type} (run : Run α) (s : Session) (names : Token → Prop) : Prop where
  current : run.session.current = s.current
  assigned : ReflTransGen (Store.Assigns s.current names) s.store run.session.store

namespace Run.AssignsOnly

variable {α β : Type} {s : Session} {run : Run α} {names names' : Token → Prop}

theorem of_session_eq (h : run.session = s) : run.AssignsOnly s names where
  current := by rw [h]
  assigned := by rw [h]

theorem mono (h : run.AssignsOnly s names) (hnames : ∀ t, names t → names' t) : run.AssignsOnly s names' where
  current := h.current
  assigned := by
    refine ReflTransGen.mono ?_ _ _ h.assigned
    rintro st after ⟨name, value, hname, hassign⟩
    exact ⟨name, value, hnames name hname, hassign⟩

theorem andThen {next : α → Session → Run β} (h : run.AssignsOnly s names)
    (hnext : ∀ value s', (next value s').AssignsOnly s' names) : (run.andThen next).AssignsOnly s names := by
  cases hresult : run.result with
  | error fault =>
      rw [andThen_of_error hresult]
      exact ⟨h.current, h.assigned⟩
  | ok value =>
      have hafter := hnext value run.session
      have hassigned := hafter.assigned
      rw [h.current] at hassigned
      rw [andThen_of_ok hresult]
      exact ⟨hafter.current.trans h.current, h.assigned.trans hassigned⟩

end Run.AssignsOnly

theorem Session.assign_assignsOnly (s : Session) (name : Token) (value : Value) :
    (s.assign name value).AssignsOnly s (· = name) := by
  rw [Session.assign]
  cases hassign : s.store.assign s.current name value with
  | error fault => exact .of_session_eq rfl
  | ok store => exact ⟨rfl, .single ⟨name, value, rfl, hassign⟩⟩

theorem Expr.eval_assignsOnly (e : Expr) (s : Session) : (e.eval s).AssignsOnly s fun t => e.Assigns t := by
  induction e generalizing s with
  | literal value span => exact .of_session_eq rfl
  | grouping inner span ih => exact ih s
  | unary operator right span ih =>
      apply Run.AssignsOnly.andThen (ih s)
      intro value s'
      exact .of_session_eq rfl
  | binary left operator right span ihleft ihright =>
      apply Run.AssignsOnly.andThen ((ihleft s).mono fun t => Or.inl)
      intro a s'
      apply Run.AssignsOnly.andThen ((ihright s').mono fun t => Or.inr)
      intro b s''
      exact .of_session_eq rfl
  | reference name =>
      rw [Expr.eval]
      cases s.store.get? s.current name.lexeme <;> exact .of_session_eq rfl
  | assign name inner span ih =>
      apply Run.AssignsOnly.andThen ((ih s).mono fun t => Or.inr)
      intro value s'
      exact (s'.assign_assignsOnly name value).mono fun t => Or.inl

/-! ### Scopes that have ended -/

/-- The outcome of an expression in a scope that has ended: no name has a value, and the first assignment is refused. -/
def Expr.evalEnded : Expr → Except Fault Value
  | .literal value _ => .ok value
  | .grouping inner _ => inner.evalEnded
  | .unary operator right _ => do
    let value ← right.evalEnded
    Operator.applyUnary operator value
  | .binary left operator right _ => do
    let a ← left.evalEnded
    let b ← right.evalEnded
    Operator.applyBinary operator a b
  | .reference _ => .ok .null
  | .assign _ value _ => do
    let _ ← value.evalEnded
    throw .releasedScope

theorem Run.andThen_of_session_eq {α β : Type} {run : Run α} {next : α → Session → Run β} {s : Session}
    {result : Except Fault α} {result' : α → Except Fault β} (h : run.result = result ∧ run.session = s)
    (hnext : ∀ value, (next value s).result = result' value ∧ (next value s).session = s) :
    (run.andThen next).result = result >>= result' ∧ (run.andThen next).session = s := by
  obtain ⟨rfl, rfl⟩ := h
  cases hresult : run.result with
  | error fault =>
      rw [andThen_of_error hresult]
      exact ⟨rfl, rfl⟩
  | ok value =>
      rw [andThen_of_ok hresult]
      exact hnext value

theorem Expr.eval_ended {s : Session} (hended : s.store.Ended s.current) (e : Expr) :
    (e.eval s).result = e.evalEnded ∧ (e.eval s).session = s := by
  induction e with
  | literal value span => exact ⟨rfl, rfl⟩
  | grouping inner span ih => exact ih
  | unary operator right span ih =>
      apply Run.andThen_of_session_eq ih
      intro value
      exact ⟨rfl, rfl⟩
  | binary left operator right span ihleft ihright =>
      apply Run.andThen_of_session_eq ihleft
      intro a
      apply Run.andThen_of_session_eq ihright
      intro b
      exact ⟨rfl, rfl⟩
  | reference name =>
      rw [Expr.eval, hended.get?]
      exact ⟨rfl, rfl⟩
  | assign name inner span ih =>
      apply Run.andThen_of_session_eq ih
      intro value
      rw [Session.assign, hended.assign]
      exact ⟨rfl, rfl⟩

/-- A value is found only where nothing is assigned. Otherwise the first assignment is refused, or before it operands are refused for their types. -/
structure EndedOutcome (result : Except Fault Value) (assigned : Prop) : Prop where
  ok : ∀ value, result = .ok value → ¬assigned
  error : ∀ fault, result = .error fault →
    fault = .releasedScope ∨ ∃ place operator operands, fault = .invalidType place operator operands

namespace EndedOutcome

variable {result : Except Fault Value} {next : Value → Except Fault Value} {assigned assigned' : Prop}

theorem value (value : Value) : EndedOutcome (.ok value) False where
  ok _ _ h := h
  error := by
    intro fault h
    cases h

theorem refused (assigned : Prop) : EndedOutcome (.error .releasedScope) assigned where
  ok := by
    intro value h
    cases h
  error _ h := .inl (Except.error.inj h).symm

theorem applied {operator : Token}
    (h : ∀ fault, result = .error fault → ∃ operands, fault = Operator.mistyped operator operands) :
    EndedOutcome result False where
  ok _ _ h := h
  error := by
    intro fault hfault
    obtain ⟨operands, rfl⟩ := h fault hfault
    exact .inr ⟨_, _, _, rfl⟩

theorem bind (h : EndedOutcome result assigned) (hnext : ∀ value, EndedOutcome (next value) assigned') :
    EndedOutcome (result >>= next) (assigned ∨ assigned') := by
  cases result with
  | error fault =>
      refine ⟨?_, h.error⟩
      intro value hvalue
      cases hvalue
  | ok value =>
      refine ⟨?_, (hnext value).error⟩
      rintro last hlast (hfirst | hlater)
      · exact h.ok value rfl hfirst
      · exact (hnext value).ok last hlast hlater

theorem mono (h : EndedOutcome result assigned) (hassigned : assigned' → assigned) : EndedOutcome result assigned' where
  ok value hvalue h' := h.ok value hvalue (hassigned h')
  error := h.error

theorem applyUnary (operator : Token) (right : Value) : EndedOutcome (Operator.applyUnary operator right) False :=
  applied fun _ h => ⟨_, Operator.applyUnary_error h⟩

theorem applyBinary (operator : Token) (left right : Value) :
    EndedOutcome (Operator.applyBinary operator left right) False :=
  applied fun _ h => ⟨_, Operator.applyBinary_error h⟩

end EndedOutcome

theorem Expr.evalEnded_outcome (e : Expr) : EndedOutcome e.evalEnded (∃ t, e.Assigns t) := by
  induction e with
  | literal value span => exact (EndedOutcome.value value).mono fun ⟨_, h⟩ => h
  | grouping inner span ih => exact ih
  | unary operator right span ih => exact (ih.bind fun value => .applyUnary operator value).mono Or.inl
  | binary left operator right span ihleft ihright =>
      refine (ihleft.bind fun a => ihright.bind fun b => .applyBinary operator a b).mono ?_
      rintro ⟨t, h | h⟩
      · exact .inl ⟨t, h⟩
      · exact .inr (.inl ⟨t, h⟩)
  | reference name => exact (EndedOutcome.value .null).mono fun ⟨_, h⟩ => h
  | assign name inner span ih => exact (ih.bind fun _ => .refused True).mono fun _ => .inr trivial

namespace Client

variable {scope : Handle}

/-- Assignments from a scope are requests that a client can make, if it has the handle of the scope. -/
theorem exists_requests_of_assigned {names : Token → Prop} {handles : List Handle} (hscope : scope ∈ handles)
    {st last : Store} (hassigned : ReflTransGen (Store.Assigns scope names) st last) :
    ∃ requests, Legal ⟨st, handles⟩ requests ∧ after ⟨st, handles⟩ requests = ⟨last, handles⟩ ∧
      ∀ request ∈ requests, ∃ name value, names name ∧ request = .assign scope name value := by
  induction hassigned using ReflTransGen.head_induction_on with
  | refl => exact ⟨[], trivial, rfl, by simp⟩
  | @head st middle hfirst _ ih =>
      obtain ⟨name, value, hname, hassign⟩ := hfirst
      obtain ⟨requests, hlegal, hafter, hrequests⟩ := ih
      have hask : (ask ⟨st, handles⟩ (.assign scope name value)).1 = ⟨middle, handles⟩ := by
        rw [ask, Store.serve, hassign]
        rfl
      refine ⟨.assign scope name value :: requests, ⟨hscope, ?_⟩, ?_, ?_⟩
      · rw [hask]
        exact hlegal
      · rw [after, hask]
        exact hafter
      · exact List.forall_mem_cons.2 ⟨⟨name, value, hname, rfl⟩, hrequests⟩

/-- **An evaluation does nothing but assign.** After any legal requests an expression is evaluated from any scope whose handle was given out. Whether it succeeds or fails, it leaves the store that some legal requests leave, each of which assigns from that scope a name that the expression assigns. So the scopes, their links and their names stay, the same handles name existing scopes, and any other name is read as before from everywhere; an expression that assigns nothing leaves the store as it was. If the scope has ended, nothing changes, names read as null, and the first assignment is refused, unless operands are refused for their types before it. -/
theorem evaluation_only_assigns {requests : List (Request Handle)} (legal : fresh.Legal requests)
    (hscope : scope ∈ (fresh.after requests).handles) (e : Expr) :
    let c := fresh.after requests
    let run := c.store.eval scope e
    let after := run.session.store
    (∃ assignments, c.Legal assignments ∧ c.after assignments = ⟨after, c.handles⟩ ∧
      ∀ request ∈ assignments, ∃ name value, e.Assigns name ∧ request = .assign scope name value) ∧
    c.store.SameBut (fun t => e.Assigns t) after ∧
    ((∀ t, ¬e.Assigns t) → after = c.store) ∧
    (c.store.live scope = false → after = c.store ∧ run.result = e.evalEnded ∧
      (run.result = .error .releasedScope ∨
        (∃ place operator operands, run.result = .error (.invalidType place operator operands)) ∨
        ∀ t, ¬e.Assigns t)) := by
  intro c run after
  have hwell : c.store.WellFormed := (fresh_sound.after legal).wellFormed
  have hassigned : ReflTransGen (Store.Assigns scope fun t => e.Assigns t) c.store after :=
    (e.eval_assignsOnly ⟨c.store, scope⟩).assigned
  refine ⟨exists_requests_of_assigned hscope hassigned, (hwell.assigned hassigned).2, ?_, ?_⟩
  · intro hnone
    exact Store.eq_of_assigned hnone hassigned
  · intro hlive
    obtain ⟨hresult, hsession⟩ := Expr.eval_ended (s := ⟨c.store, scope⟩) (hwell.ended hlive) e
    have houtcome := e.evalEnded_outcome
    rw [← hresult] at houtcome
    refine ⟨congrArg Session.store hsession, hresult, ?_⟩
    cases hrun : (e.eval ⟨c.store, scope⟩).result with
    | ok value => exact .inr (.inr fun t ht => houtcome.ok value hrun ⟨t, ht⟩)
    | error fault =>
        obtain rfl | ⟨place, operator, operands, rfl⟩ := houtcome.error fault hrun
        · exact .inl hrun
        · exact .inr (.inl ⟨place, operator, operands, hrun⟩)

/-- A scope has taken the place of one that has ended. From the new scope the first operand is assigned, and the second one fails before its assignment. From the old scope the first assignment is refused. -/
theorem evaluation_only_assigns_before_fault :
    let requests : List (Request Handle) := [.define .global "y" .null, .push .global, .pop ⟨1, 1⟩, .push .global,
      .define ⟨1, 2⟩ "x" .null]
    let x : Token := ⟨.identifier, "x", ⟨1, ⟨0, 1⟩⟩, none⟩
    let y : Token := ⟨.identifier, "y", ⟨1, ⟨9, 10⟩⟩, none⟩
    let plus : Token := ⟨.add, "+", ⟨1, ⟨7, 8⟩⟩, none⟩
    let minus : Token := ⟨.subtract, "-", ⟨1, ⟨11, 12⟩⟩, none⟩
    let e : Expr := .binary (.assign x (.literal (.bool true) ⟨2, 6⟩) ⟨0, 6⟩) plus
      (.assign y (.unary minus (.reference y) ⟨11, 13⟩) ⟨9, 13⟩) ⟨0, 13⟩
    let c := fresh.after requests
    let run := c.store.eval ⟨1, 2⟩ e
    fresh.Legal requests ∧ ⟨1, 2⟩ ∈ c.handles ∧ run.result = .error (.invalidType ⟨1, ⟨11, 12⟩⟩ "-" [.null]) ∧
      run.session.store.get? ⟨1, 2⟩ "x" = some (.bool true) ∧ c.store.SameBut (fun t => e.Assigns t) run.session.store ∧
      c.store.live ⟨1, 1⟩ = false ∧ (c.store.eval ⟨1, 1⟩ e).session.store = c.store ∧
      (c.store.eval ⟨1, 1⟩ e).result = .error .releasedScope := by
  intro requests x y plus minus e c run
  have hlegal : fresh.Legal requests := by decide
  have hscope : ⟨1, 2⟩ ∈ c.handles := by decide
  have hended : c.store.live ⟨1, 1⟩ = false := by decide
  obtain ⟨-, hsame, -, -⟩ := evaluation_only_assigns hlegal hscope e
  obtain ⟨-, -, -, hnothing⟩ := evaluation_only_assigns hlegal (by decide : ⟨1, 1⟩ ∈ c.handles) e
  obtain ⟨hstore, hresult, -⟩ := hnothing hended
  exact ⟨hlegal, hscope, by decide, by decide, hsame, hended, hstore, hresult⟩

end Client

end Blockscript
