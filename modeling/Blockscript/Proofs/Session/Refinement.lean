import Blockscript.Proofs.Session.Frames

/-!
# A session behaves as a stack of maps

While programs run in a session, its scopes lie inside one another: each is linked to the one below it, and the current one is on top. Such scopes are read off as frames, and every step of a run does to the frames what the plain meaning says. The handles of the open scopes are the same after a statement as before it, which is what lets a block find its way back.

`runAll_fresh_refines` is the outcome: programs that are run one after another in a fresh session give the values and faults of their meaning, and between two programs only the global scope is left.
-/

namespace Blockscript

/-! ### Scopes inside one another -/

/-- Handles, scopes and frames of open blocks, the innermost first. Every scope is linked to the next one and numbered by the scopes below it. -/
inductive Scope.Stacked : List Handle → List Scope → Frames → Prop
  | global {b : Bindings} {frame : Frame} (agrees : b.Agrees frame) :
      Stacked [.global] [⟨.global, none, b⟩] [frame]
  | inside {handle outer : Handle} {handles : List Handle} {scopes : List Scope} {b : Bindings}
      {frame : Frame} {frames : Frames} (numbered : handle.index = handles.length + 1)
      (agrees : b.Agrees frame) (below : Stacked (outer :: handles) scopes frames) :
      Stacked (handle :: outer :: handles) (⟨handle, some outer, b⟩ :: scopes) (frame :: frames)

namespace Scope.Stacked

variable {current : Handle} {handles : List Handle} {scopes : List Scope} {frames : Frames}

theorem length_scopes (h : Stacked handles scopes frames) : scopes.length = handles.length := by
  induction h with
  | global _ => rfl
  | inside _ _ _ ih => rw [List.length_cons, List.length_cons, ih]

theorem find?_current (h : Stacked (current :: handles) scopes frames) :
    (Scope.find? current scopes).isSome = true := by
  cases h <;> simp [Scope.find?]

theorem get?_eq (h : Stacked (current :: handles) scopes frames) (name : String) :
    Scope.get? name current scopes = Frames.get? name frames := by
  generalize hall : current :: handles = all at h
  induction h generalizing current handles with
  | @global b frame agrees =>
      obtain ⟨rfl, rfl⟩ := List.cons.inj hall
      simp only [Scope.get?, Frames.get?, agrees name, if_true]
      cases frame.lookup name <;> rfl
  | @inside handle outer handles' scopes b frame frames numbered agrees below ih =>
      obtain ⟨rfl, rfl⟩ := List.cons.inj hall
      simp only [Scope.get?, Frames.get?, agrees name, if_true]
      cases frame.lookup name with
      | some value => rfl
      | none => exact ih rfl

theorem define? (h : Stacked (current :: handles) scopes frames) (name : String) (value : Value) :
    ∃ scopes', Scope.define? name value current scopes = some scopes' ∧
      Stacked (current :: handles) scopes' (Frames.define name value frames) := by
  cases h with
  | global agrees =>
      exact ⟨_, by rw [Scope.define?, if_pos rfl], .global (agrees.insert name value)⟩
  | inside numbered agrees below =>
      exact ⟨_, by rw [Scope.define?, if_pos rfl], .inside numbered (agrees.insert name value) below⟩

/-- Assigning fails in both views or succeeds in both, in the same scope. -/
theorem assign? (h : Stacked (current :: handles) scopes frames) (name : String) (value : Value) :
    Option.Rel (Stacked (current :: handles)) (Scope.assign? name value current scopes)
      (Frames.assign? name value frames) := by
  generalize hall : current :: handles = all at h
  induction h generalizing current handles with
  | @global b frame agrees =>
      obtain ⟨rfl, rfl⟩ := List.cons.inj hall
      simp only [Scope.assign?, Frames.assign?, agrees.contains_eq name, if_true]
      by_cases hbound : name ∈ frame
      · simp only [hbound, decide_true, if_true]
        exact .some (.global (agrees.insert name value))
      · simp only [hbound, decide_false, if_false]
        exact .none
  | @inside handle outer handles' scopes b frame frames numbered agrees below ih =>
      obtain ⟨rfl, rfl⟩ := List.cons.inj hall
      simp only [Scope.assign?, Frames.assign?, agrees.contains_eq name, if_true]
      by_cases hbound : name ∈ frame
      · simp only [hbound, decide_true, if_true]
        exact .some (.inside numbered (agrees.insert name value) below)
      · simp only [hbound, decide_false, if_false]
        have hbelow := ih rfl
        generalize Scope.assign? name value outer scopes = after at hbelow ⊢
        generalize Frames.assign? name value frames = after' at hbelow ⊢
        cases hbelow with
        | none => exact .none
        | some hbelow => exact .some (.inside numbered agrees hbelow)

end Scope.Stacked

/-! ### Sessions and runs -/

/-- The open scopes of a session have the given handles, the current one first, and hold the variables of the frames. -/
structure Session.Realises (s : Session) (handles : List Handle) (frames : Frames) : Prop where
  current : handles.head? = some s.current
  stacked : Scope.Stacked handles s.store.scopes frames

namespace Session

theorem fresh_realises : fresh.Realises [.global] Frames.fresh where
  current := rfl
  stacked := .global Bindings.agrees_empty

namespace Realises

variable {s : Session} {handles : List Handle} {frames : Frames}

theorem stacked_current (h : s.Realises handles frames) :
    Scope.Stacked (s.current :: handles.tail) s.store.scopes frames := by
  rw [List.cons_head?_tail h.current]
  exact h.stacked

theorem get?_eq (h : s.Realises handles frames) (name : String) :
    s.store.get? s.current name = Frames.get? name frames :=
  h.stacked_current.get?_eq name

theorem define (h : s.Realises handles frames) (name : String) (value : Value) :
    ∃ store, s.store.define s.current name value = .ok store ∧
      Realises { s with store } handles (Frames.define name value frames) := by
  obtain ⟨scopes, hscopes, hstacked⟩ := h.stacked_current.define? name value
  rw [List.cons_head?_tail h.current] at hstacked
  refine ⟨{ s.store with scopes }, ?_, h.current, hstacked⟩
  rw [Store.define, hscopes]

theorem live_current (h : s.Realises handles frames) : s.store.live s.current = true :=
  h.stacked_current.find?_current

theorem assign (h : s.Realises handles frames) (name : Token) (value : Value) :
    (∃ store frames', s.store.assign s.current name value = .ok store ∧
      Frames.assign? name.lexeme value frames = some frames' ∧
      Realises { s with store } handles frames') ∨
    (s.store.assign s.current name value = .error (.undefinedVariable name.place name.lexeme) ∧
      Frames.assign? name.lexeme value frames = none) := by
  have hrel := h.stacked_current.assign? name.lexeme value
  rw [List.cons_head?_tail h.current] at hrel
  rw [Store.assign, if_pos h.live_current]
  generalize Scope.assign? name.lexeme value s.current s.store.scopes = after at hrel ⊢
  generalize Frames.assign? name.lexeme value frames = after' at hrel ⊢
  cases hrel with
  | none => exact .inr ⟨rfl, rfl⟩
  | some hstacked => exact .inl ⟨_, _, rfl, rfl, h.current, hstacked⟩

theorem enter (h : s.Realises handles frames) :
    s.enter.Realises (s.store.nextHandle :: handles) (∅ :: frames) where
  current := rfl
  stacked := by
    have hstacked := h.stacked_current
    have hlength := hstacked.length_scopes
    rw [← List.cons_head?_tail h.current]
    exact .inside hlength Bindings.agrees_empty hstacked

theorem leave {inner previous : Handle} (h : s.Realises (inner :: handles) frames)
    (hprevious : handles.head? = some previous) :
    (s.leave previous).Realises handles frames.tail := by
  obtain ⟨⟨scopes, nextGeneration⟩, current⟩ := s
  obtain ⟨hcurrent, hstacked⟩ := h
  obtain rfl : inner = current := Option.some.inj hcurrent
  have hlive := hstacked.find?_current
  refine ⟨hprevious, ?_⟩
  cases hstacked with
  | global _ => simp at hprevious
  | @inside _ outer _ older b _ _ numbered agrees below =>
      have hpop : Store.canPop ⟨⟨inner, some outer, b⟩ :: older, nextGeneration⟩ inner = true := by
        rw [Store.canPop, Store.live, Store.find?, hlive, numbered]
        simp
      rw [Session.leave, Store.pop, if_pos hpop]
      simp only [Scope.below, if_true]
      exact below

end Realises

end Session

/-- A run has the value or fault of an outcome and leaves a session for its frames, with the handles that it met. -/
structure Run.Simulates {α : Type} (run : Run α) (handles : List Handle)
    (outcome : Except Fault α × Frames) : Prop where
  result : run.result = outcome.1
  realises : run.session.Realises handles outcome.2

namespace Run.Simulates

variable {α β : Type} {handles : List Handle} {frames : Frames} {s : Session}

/-- One run after another is one meaning after another. -/
theorem andThen {run : Run α} {m : Meaning α} {next : α → Session → Run β} {next' : α → Meaning β}
    (h : run.Simulates handles (m.outcome frames))
    (hnext : ∀ value s' frames', s'.Realises handles frames' →
      (next value s').Simulates handles ((next' value).outcome frames')) :
    (run.andThen next).Simulates handles ((m >>= next').outcome frames) := by
  obtain ⟨hresult, hrealises⟩ := h
  generalize houtcome : m.outcome frames = outcome at hresult hrealises
  obtain ⟨result, after⟩ := outcome
  cases result with
  | error fault =>
      rw [Meaning.outcome_bind_error houtcome, Run.andThen, hresult]
      exact ⟨rfl, hrealises⟩
  | ok value =>
      rw [Meaning.outcome_bind_ok houtcome, Run.andThen, hresult]
      have hafter := hnext value run.session after hrealises
      exact ⟨hafter.result, hafter.realises⟩

theorem done (h : s.Realises handles frames) (value : α) :
    (Run.done value s).Simulates handles ((pure value : Meaning α).outcome frames) :=
  ⟨rfl, h⟩

theorem ofExcept (h : s.Realises handles frames) (result : Except Fault α) :
    (Run.ofExcept result s).Simulates handles ((liftExcept result : Meaning α).outcome frames) := by
  cases result <;> exact ⟨rfl, h⟩

end Run.Simulates

theorem Session.define_simulates {s : Session} {handles : List Handle} {frames : Frames}
    (h : s.Realises handles frames) (name : String) (value : Value) :
    (s.define name value).Simulates handles ((Meaning.declare name value).outcome frames) := by
  obtain ⟨store, hstore, hafter⟩ := h.define name value
  rw [Session.define, hstore]
  exact ⟨rfl, hafter⟩

theorem Session.assign_simulates {s : Session} {handles : List Handle} {frames : Frames}
    (h : s.Realises handles frames) (name : Token) (value : Value) :
    (s.assign name value).Simulates handles ((Meaning.write name value).outcome frames) := by
  obtain ⟨store, after, hstore, hframes, hafter⟩ | ⟨hstore, hframes⟩ := h.assign name value
  · rw [Session.assign, hstore, Meaning.outcome_write_some hframes]
    exact ⟨rfl, hafter⟩
  · rw [Session.assign, hstore, Meaning.outcome_write_none hframes]
    exact ⟨rfl, h⟩

theorem Expr.eval_simulates (e : Expr) {s : Session} {handles : List Handle} {frames : Frames}
    (h : s.Realises handles frames) : (e.eval s).Simulates handles (e.meaning.outcome frames) := by
  induction e generalizing s frames with
  | literal value span => exact .done h value
  | grouping inner span ih => exact ih h
  | unary operator right span ih =>
      refine .andThen (ih h) fun value s' frames' h' => ?_
      exact .ofExcept h' _
  | binary left operator right span ihleft ihright =>
      refine .andThen (ihleft h) fun a s' frames' h' => ?_
      refine .andThen (ihright h') fun b s'' frames'' h'' => ?_
      exact .ofExcept h'' _
  | reference name =>
      rw [Expr.eval, h.get?_eq, Expr.meaning, Meaning.outcome_read]
      cases Frames.get? name.lexeme frames <;> exact ⟨rfl, h⟩
  | assign name inner span ih =>
      refine .andThen (ih h) fun value s' frames' h' => ?_
      exact Session.assign_simulates h' name value

theorem Expr.evalOptional_simulates (e : Option Expr) {s : Session} {handles : List Handle}
    {frames : Frames} (h : s.Realises handles frames) :
    (Expr.evalOptional e s).Simulates handles ((Expr.meaningOptional e).outcome frames) := by
  cases e with
  | none => exact .done h Value.null
  | some e => exact e.eval_simulates h

theorem Stmt.meaning_expression (e : Expr) (span : Span) :
    (Stmt.expression e span).meaning =
      e.meaning >>= fun value => pure (if e.isAssign then [] else [value]) := by
  cases e <;> rfl

mutual

theorem Stmt.exec_simulates (stmt : Stmt) {s : Session} {handles : List Handle} {frames : Frames}
    (h : s.Realises handles frames) : (stmt.exec s).Simulates handles (stmt.meaning.outcome frames) := by
  cases stmt with
  | expression e span =>
      rw [Stmt.meaning_expression]
      refine .andThen (e.eval_simulates h) fun value s' frames' h' => ?_
      exact .done h' _
  | var name initializer span =>
      rw [Stmt.exec, Stmt.meaning]
      refine .andThen (Expr.evalOptional_simulates initializer h) fun value s' frames' h' => ?_
      refine .andThen (Session.define_simulates h' name.lexeme value) fun _ s'' frames'' h'' => ?_
      exact .done h'' []
  | block body span =>
      have hbody := Stmt.execAll_simulates body h.enter
      exact ⟨hbody.result, hbody.realises.leave h.current⟩

theorem Stmt.execAll_simulates (stmts : List Stmt) {s : Session} {handles : List Handle}
    {frames : Frames} (h : s.Realises handles frames) :
    (Stmt.execAll stmts s).Simulates handles ((Stmt.meaningAll stmts).outcome frames) := by
  cases stmts with
  | nil => exact .done h []
  | cons stmt rest =>
      refine .andThen (Stmt.exec_simulates stmt h) fun values s' frames' h' => ?_
      refine .andThen (Stmt.execAll_simulates rest h') fun more s'' frames'' h'' => ?_
      exact .done h'' (values ++ more)

end

/-! ### Programs one after another -/

/-- The runs of programs one after another, each in the session that the one before left. -/
def Session.runAll : List (List Stmt) → Session → List (Run (List Value))
  | [], _ => []
  | program :: rest, s =>
    let run := Stmt.execAll program s
    run :: Session.runAll rest run.session

/-- Of the scopes only the global one is open, and it holds the variables of the one frame. -/
def Session.AtRest (s : Session) (frames : Frames) : Prop :=
  ∃ b frame, s.current = .global ∧ s.store.scopes = [⟨.global, none, b⟩] ∧ frames = [frame] ∧ b.Agrees frame

theorem Session.Realises.atRest {s : Session} {frames : Frames} (h : s.Realises [.global] frames) :
    s.AtRest frames := by
  obtain ⟨⟨scopes, nextGeneration⟩, current⟩ := s
  obtain ⟨hcurrent, hstacked⟩ := h
  cases hstacked with
  | @global b frame agrees => exact ⟨b, frame, (Option.some.inj hcurrent).symm, rfl, rfl, agrees⟩

theorem Session.runAll_simulates (programs : List (List Stmt)) {s : Session} {handles : List Handle}
    {frames : Frames} (h : s.Realises handles frames) :
    List.Forall₂ (fun run outcome => run.Simulates handles outcome) (s.runAll programs)
      (frames.runAll programs) := by
  induction programs generalizing s frames with
  | nil => exact .nil
  | cons program rest ih =>
      have hprogram := Stmt.execAll_simulates program h
      exact .cons hprogram (ih hprogram.realises)

/-- **A session is a stack of maps.** Programs run one after another in a fresh session give the values and faults of their meaning, and after each of them, whether it succeeded or not, the global scope alone is left and holds what the one frame holds. -/
theorem runAll_fresh_refines (programs : List (List Stmt)) :
    List.Forall₂ (fun run outcome => run.result = outcome.1 ∧ run.session.AtRest outcome.2)
      (Session.fresh.runAll programs) (Frames.fresh.runAll programs) :=
  (Session.runAll_simulates programs Session.fresh_realises).imp fun _ _ h => ⟨h.result, h.realises.atRest⟩

end Blockscript
