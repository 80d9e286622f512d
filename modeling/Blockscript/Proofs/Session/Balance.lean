import Blockscript.Script
import Blockscript.Proofs.Session.Refinement

/-!
# Blocks end where they began

Every statement is run between two looks at the scopes, and it leaves them as they were: the same scopes are open, with the same handles and links, and the same one is current. Names can only be added to the current scope, so a block, which has a current scope of its own, adds none that is seen after it. It does not matter whether a statement succeeds, as a block ends its scope in either case.

From this a session never meets a scope that has ended, and every fault has a place.
-/

namespace Blockscript

/-! ### Outlines of scopes -/

/-- The name of a scope and the scope that it lies in. -/
def Scope.link (scope : Scope) : Handle × Option Handle :=
  (scope.handle, scope.enclosing)

/-- All that a scope is but the values of its names. -/
def Scope.outline (scope : Scope) : (Handle × Option Handle) × List String :=
  (scope.link, scope.bindings.names)

def Session.outlines (s : Session) : List ((Handle × Option Handle) × List String) :=
  s.store.scopes.map Scope.outline

theorem Bindings.map_fst_insertEntry {name : String} {entries : List (String × Value)}
    (h : (entryValue? name entries).isSome = true) (value : Value) :
    (insertEntry name value entries).map Prod.fst = entries.map Prod.fst := by
  induction entries with
  | nil => cases h
  | cons entry rest ih =>
      obtain ⟨key, old⟩ := entry
      rw [entryValue?] at h
      rw [insertEntry]
      by_cases hkey : name = key
      · rw [if_pos hkey]
        rfl
      · rw [if_neg hkey] at h ⊢
        rw [List.map_cons, List.map_cons, ih h]

theorem Bindings.names_insert {b : Bindings} {name : String} (h : b.contains name = true) (value : Value) :
    (b.insert name value).names = b.names :=
  map_fst_insertEntry h value

/-- An assignment changes a value and nothing else. -/
theorem Scope.assign?_outline {name : String} {value : Value} {handle : Handle} {scopes after : List Scope}
    (h : Scope.assign? name value handle scopes = some after) : after.map outline = scopes.map outline := by
  induction scopes generalizing handle after with
  | nil => cases h
  | cons scope older ih =>
      have hbelow : ∀ {handle}, (Scope.assign? name value handle older).map (scope :: ·) = some after →
          after.map outline = (scope :: older).map outline := by
        intro handle hafter
        obtain ⟨rest, hrest, rfl⟩ := Option.map_eq_some_iff.1 hafter
        rw [List.map_cons, List.map_cons, ih hrest]
      rw [Scope.assign?] at h
      by_cases hhandle : scope.handle = handle
      · rw [if_pos hhandle] at h
        cases hbound : scope.bindings.contains name with
        | true =>
            rw [hbound] at h
            obtain rfl := Option.some.inj h
            rw [List.map_cons, List.map_cons, outline, outline, Bindings.names_insert hbound]
            rfl
        | false =>
            rw [hbound] at h
            cases henclosing : scope.enclosing with
            | none => simp [henclosing] at h
            | some outer =>
                simp only [henclosing] at h
                exact hbelow h
      · rw [if_neg hhandle] at h
        exact hbelow h

theorem Store.assign_outline {st after : Store} {handle : Handle} {name : Token} {value : Value}
    (h : st.assign handle name value = .ok after) : after.scopes.map Scope.outline = st.scopes.map Scope.outline := by
  rw [Store.assign] at h
  split at h
  · cases hassign : Scope.assign? name.lexeme value handle st.scopes with
    | none => simp [hassign] at h
    | some scopes =>
        simp only [hassign] at h
        obtain rfl := Except.ok.inj h
        exact Scope.assign?_outline hassign
  · cases h

namespace Scope.Stacked

variable {current outer : Handle} {handles : List Handle} {scopes scopes' : List Scope} {frames frames' : Frames}

theorem index_current (h : Stacked (current :: handles) scopes frames) : current.index = handles.length := by
  cases h with
  | global _ => rfl
  | inside numbered _ _ => exact numbered

/-- The handles of open scopes determine the scopes but for what they bind. -/
theorem links_eq (h : Stacked handles scopes frames) (h' : Stacked handles scopes' frames') :
    scopes.map link = scopes'.map link := by
  induction h generalizing scopes' frames' with
  | global _ =>
      cases h' with
      | global _ => rfl
  | inside _ _ _ ih =>
      cases h' with
      | inside _ _ below' =>
          rw [List.map_cons, List.map_cons, ih below']
          rfl

theorem enclosing_current (h : Stacked (current :: outer :: handles) scopes frames) :
    ((Scope.find? current scopes).bind (·.enclosing)) = some outer := by
  cases h with
  | inside _ _ _ => simp [Scope.find?]

theorem index_outer (h : Stacked (current :: outer :: handles) scopes frames) : outer.index = handles.length := by
  cases h with
  | inside _ _ below => exact below.index_current

theorem find?_outer (h : Stacked (current :: outer :: handles) scopes frames) :
    (Scope.find? outer scopes).isSome = true := by
  cases h with
  | inside _ _ below =>
      have houter := below.find?_current
      rw [Scope.find?, List.find?_isSome] at houter ⊢
      obtain ⟨scope, hmem, hscope⟩ := houter
      exact ⟨scope, List.mem_cons_of_mem _ hmem, hscope⟩

/-- A declaration changes the current scope only. -/
theorem define?_tail {name : String} {value : Value} (h : Stacked (current :: handles) scopes frames)
    (hdefine : Scope.define? name value current scopes = some scopes') : scopes'.tail = scopes.tail := by
  cases h with
  | global _ | inside _ _ _ =>
      rw [Scope.define?, if_pos rfl] at hdefine
      obtain rfl := Option.some.inj hdefine
      rfl

end Scope.Stacked

/-! ### Brackets of events -/

/-- Whether a scope begins or ends with an event. -/
def Event.isScoping : Event → Bool
  | .pushed .. | .popped .. => true
  | _ => false

/-- Scopes inside the one of the given depth begin and end in pairs, each with the next depth. -/
inductive Brackets : Nat → List Event → Prop
  | nil {depth : Nat} : Brackets depth []
  | block {depth : Nat} {inner rest : List Event} (within : Brackets (depth + 1) inner) (others : Brackets depth rest) :
      Brackets depth (.pushed (depth + 1) depth :: inner ++ .popped (depth + 1) :: rest)

theorem Brackets.append {depth : Nat} {front back : List Event} (h : Brackets depth front)
    (h' : Brackets depth back) : Brackets depth (front ++ back) := by
  induction h with
  | nil => exact h'
  | block within _ _ ih =>
      rw [List.append_assoc, List.cons_append]
      exact .block within (ih h')

/-! ### Runs -/

namespace Session.Realises

variable {s : Session} {inner outer : Handle} {handles : List Handle} {frames : Frames}

theorem index_current (h : s.Realises handles frames) : s.current.index = handles.tail.length :=
  h.stacked_current.index_current

theorem length_scopes (h : s.Realises handles frames) : s.store.scopes.length = handles.tail.length + 1 :=
  h.stacked_current.length_scopes

theorem define_tail {name : String} {value : Value} {store : Store} (h : s.Realises handles frames)
    (hdefine : s.store.define s.current name value = .ok store) : store.scopes.tail = s.store.scopes.tail := by
  rw [Store.define] at hdefine
  cases hscopes : Scope.define? name value s.current s.store.scopes with
  | none => simp [hscopes] at hdefine
  | some scopes =>
      simp only [hscopes] at hdefine
      obtain rfl := Except.ok.inj hdefine
      exact h.stacked_current.define?_tail hscopes

/-- A scope that lies in another one is ended by leaving it. -/
theorem leave_eq (h : s.Realises (inner :: outer :: handles) frames) (previous : Handle) :
    s.leave previous = ⟨{ s.store with scopes := s.store.scopes.tail }, previous⟩ ∧
      s.leaveEvents = [.popped s.current.index] := by
  have hpop : s.store.canPop s.current = true := by
    rw [Store.canPop, h.live_current, h.index_current]
    simp
  have hbelow : Scope.below s.current s.store.scopes = s.store.scopes.tail := by
    obtain ⟨⟨scopes, nextGeneration⟩, current⟩ := s
    obtain ⟨hcurrent, hstacked⟩ := h
    obtain rfl : inner = current := Option.some.inj hcurrent
    cases hstacked with
    | inside _ _ _ => simp [Scope.below]
  rw [Session.leave, Session.leaveEvents, Store.pop, if_pos hpop, if_pos hpop, hbelow]
  exact ⟨rfl, rfl⟩

end Session.Realises

/-- A run leaves open the scopes that were open, and changes no names outside the current one. Scopes begin and end in pairs on the way, and a fault has a place. -/
structure Run.Tidy {α : Type} (run : Run α) (s : Session) (handles : List Handle) : Prop where
  realises : ∃ frames, run.session.Realises handles frames
  outer : run.session.outlines.tail = s.outlines.tail
  brackets : Brackets handles.tail.length (run.events.filter Event.isScoping)
  located : ∀ fault, run.result = .error fault → fault.place?.isSome = true

namespace Run.Tidy

variable {α β : Type} {s : Session} {handles : List Handle} {frames : Frames}

theorem done (h : s.Realises handles frames) (value : α) : (Run.done value s).Tidy s handles :=
  ⟨⟨frames, h⟩, rfl, .nil, by simp [Run.done]⟩

theorem ofExcept (h : s.Realises handles frames) {result : Except Fault α}
    (hlocated : ∀ fault, result = .error fault → fault.place?.isSome = true) :
    (Run.ofExcept result s).Tidy s handles :=
  ⟨⟨frames, h⟩, rfl, .nil, hlocated⟩

theorem andThen {run : Run α} {next : α → Session → Run β} (h : run.Tidy s handles)
    (hnext : ∀ value s' frames', s'.Realises handles frames' → (next value s').Tidy s' handles) :
    (run.andThen next).Tidy s handles := by
  obtain ⟨frames', hrealises⟩ := h.realises
  cases hresult : run.result with
  | error fault =>
      rw [andThen_of_error hresult]
      have hlocated := h.located fault hresult
      exact ⟨h.realises, h.outer, h.brackets, fun fault' heq => Except.error.inj heq ▸ hlocated⟩
  | ok value =>
      have hafter := hnext value run.session frames' hrealises
      rw [andThen_of_ok hresult]
      refine ⟨hafter.realises, hafter.outer.trans h.outer, ?_, hafter.located⟩
      rw [List.filter_append]
      exact h.brackets.append hafter.brackets

/-- A block leaves its scope, so that the names outside of it are those that it met. -/
theorem leave_outlines {inner : Run α} (h : s.Realises handles frames)
    (hinner : inner.Tidy s.enter (s.store.nextHandle :: handles)) :
    (inner.session.leave s.current).outlines = s.outlines := by
  obtain ⟨frames', hrealises⟩ := hinner.realises
  rw [← List.cons_head?_tail h.current] at hrealises
  rw [(hrealises.leave_eq s.current).1, Session.outlines, List.map_tail]
  exact hinner.outer

theorem block {inner : Run α} (h : s.Realises handles frames)
    (hinner : inner.Tidy s.enter (s.store.nextHandle :: handles)) :
    Run.Tidy ⟨inner.result, inner.session.leave s.current, s.enterEvents ++ inner.events ++ inner.session.leaveEvents⟩
      s handles := by
  obtain ⟨frames', hrealises⟩ := hinner.realises
  refine ⟨⟨_, hrealises.leave h.current⟩, congrArg List.tail (hinner.leave_outlines h), ?_, hinner.located⟩
  have hlength : handles.length = handles.tail.length + 1 := by
    rw [← List.cons_head?_tail h.current]
    rfl
  have hbrackets := hinner.brackets
  have hindex := hrealises.index_current
  rw [List.tail_cons, hlength] at hbrackets hindex
  rw [← List.cons_head?_tail h.current] at hrealises
  have henter : s.enterEvents = [.pushed (handles.tail.length + 1) handles.tail.length] := by
    rw [Session.enterEvents, Store.nextHandle, h.length_scopes, h.index_current]
  rw [(hrealises.leave_eq s.current).2, hindex, henter, List.filter_append, List.filter_append]
  exact .block hbrackets .nil

end Run.Tidy

theorem Session.define_tidy {s : Session} {handles : List Handle} {frames : Frames} (h : s.Realises handles frames)
    (name : String) (value : Value) : (s.define name value).Tidy s handles := by
  obtain ⟨store, hstore, hafter⟩ := h.define name value
  have htail := h.define_tail hstore
  rw [Session.define, hstore]
  refine ⟨⟨_, hafter⟩, ?_, .nil, by simp [Run.done]⟩
  rw [Session.outlines, Session.outlines, ← List.map_tail, ← List.map_tail]
  exact congrArg (List.map Scope.outline) htail

theorem Session.assign_tidy {s : Session} {handles : List Handle} {frames : Frames} (h : s.Realises handles frames)
    (name : Token) (value : Value) : (s.assign name value).Tidy s handles := by
  obtain ⟨store, after, hstore, -, hafter⟩ | ⟨hstore, -⟩ := h.assign name value
  · rw [Session.assign, hstore]
    exact ⟨⟨after, hafter⟩, congrArg List.tail (Store.assign_outline hstore), .nil, by simp [Run.done]⟩
  · rw [Session.assign, hstore]
    exact .ofExcept h fun fault hfault => by simp [← Except.error.inj hfault, Fault.place?]

theorem Expr.eval_tidy (e : Expr) {s : Session} {handles : List Handle} {frames : Frames}
    (h : s.Realises handles frames) : (e.eval s).Tidy s handles := by
  induction e generalizing s frames with
  | literal value span => exact .done h value
  | grouping inner span ih => exact ih h
  | unary operator right span ih =>
      apply Run.Tidy.andThen (ih h)
      intro value s' frames' h'
      apply Run.Tidy.ofExcept h'
      intro fault hfault
      rw [Operator.applyUnary_error hfault]
      rfl
  | binary left operator right span ihleft ihright =>
      apply Run.Tidy.andThen (ihleft h)
      intro a s' frames' h'
      apply Run.Tidy.andThen (ihright h')
      intro b s'' frames'' h''
      apply Run.Tidy.ofExcept h''
      intro fault hfault
      rw [Operator.applyBinary_error hfault]
      rfl
  | reference name =>
      rw [Expr.eval]
      cases s.store.get? s.current name.lexeme with
      | some value => exact .done h value
      | none => exact ⟨⟨frames, h⟩, rfl, .nil, by simp⟩
  | assign name inner span ih =>
      apply Run.Tidy.andThen (ih h)
      intro value s' frames' h'
      exact Session.assign_tidy h' name value

theorem Expr.evalOptional_tidy (e : Option Expr) {s : Session} {handles : List Handle} {frames : Frames}
    (h : s.Realises handles frames) : (Expr.evalOptional e s).Tidy s handles := by
  cases e with
  | none => exact .done h Value.null
  | some e => exact e.eval_tidy h

mutual

theorem Stmt.exec_tidy (stmt : Stmt) {s : Session} {handles : List Handle} {frames : Frames}
    (h : s.Realises handles frames) : (stmt.exec s).Tidy s handles := by
  cases stmt with
  | expression e span =>
      apply Run.Tidy.andThen (e.eval_tidy h)
      intro value s' frames' h'
      exact .done h' _
  | var name initializer span =>
      rw [Stmt.exec]
      apply Run.Tidy.andThen (Expr.evalOptional_tidy initializer h)
      intro value s' frames' h'
      apply Run.Tidy.andThen (Session.define_tidy h' name.lexeme value)
      intro _ s'' frames'' h''
      exact .done h'' []
  | block body span => exact .block h (Stmt.execAll_tidy body h.enter)

theorem Stmt.execAll_tidy (stmts : List Stmt) {s : Session} {handles : List Handle} {frames : Frames}
    (h : s.Realises handles frames) : (Stmt.execAll stmts s).Tidy s handles := by
  cases stmts with
  | nil => exact .done h []
  | cons stmt rest =>
      apply Run.Tidy.andThen (Stmt.exec_tidy stmt h)
      intro values s' frames' h'
      apply Run.Tidy.andThen (Stmt.execAll_tidy rest h')
      intro more s'' frames'' h''
      exact .done h'' (values ++ more)

end

/-! ### Sessions that can be reached -/

/-- The sessions that programs meet, with the number of blocks they are in. -/
inductive Session.Reached : Nat → Session → Prop
  | fresh : Reached 0 .fresh
  | evaluate {depth : Nat} {s : Session} (e : Expr) (h : Reached depth s) : Reached depth (e.eval s).session
  | execute {depth : Nat} {s : Session} (stmt : Stmt) (h : Reached depth s) : Reached depth (stmt.exec s).session
  | enter {depth : Nat} {s : Session} (h : Reached depth s) : Reached (depth + 1) s.enter

namespace Session

/-- The current scope is open and has its depth for an index. It lies in an open scope of the depth before, unless it is the global one. -/
structure AtDepth (s : Session) (depth : Nat) : Prop where
  live : s.store.live s.current = true
  index : s.current.index = depth
  inside : ∀ before, depth = before + 1 →
    ∃ outer, s.store.enclosing s.current = some outer ∧ s.store.live outer = true ∧ outer.index = before

theorem Realises.atDepth {s : Session} {handles : List Handle} {frames : Frames} {depth : Nat}
    (h : s.Realises handles frames) (hlength : handles.length = depth + 1) : s.AtDepth depth := by
  have hindex := h.index_current
  rw [List.length_tail, hlength, Nat.add_sub_cancel] at hindex
  refine ⟨h.live_current, hindex, ?_⟩
  intro before hbefore
  have hstacked := h.stacked_current
  cases htail : handles.tail with
  | nil =>
      have hzero := congrArg List.length htail
      rw [List.length_tail, List.length_nil] at hzero
      omega
  | cons outer rest =>
      have hrest := congrArg List.length htail
      rw [List.length_tail, List.length_cons] at hrest
      rw [htail] at hstacked
      refine ⟨outer, hstacked.enclosing_current, hstacked.find?_outer, ?_⟩
      rw [hstacked.index_outer]
      omega

theorem Reached.realises {s : Session} {depth : Nat} (h : Reached depth s) :
    ∃ handles frames, s.Realises handles frames ∧ handles.length = depth + 1 := by
  induction h with
  | fresh => exact ⟨_, _, fresh_realises, rfl⟩
  | evaluate e _ ih =>
      obtain ⟨handles, frames, hrealises, hlength⟩ := ih
      exact ⟨handles, _, (e.eval_simulates hrealises).realises, hlength⟩
  | execute stmt _ ih =>
      obtain ⟨handles, frames, hrealises, hlength⟩ := ih
      exact ⟨handles, _, (stmt.exec_simulates hrealises).realises, hlength⟩
  | enter _ ih =>
      obtain ⟨handles, frames, hrealises, hlength⟩ := ih
      exact ⟨_, _, hrealises.enter, congrArg (· + 1) hlength⟩

theorem Reached.executeAll {s : Session} {depth : Nat} (program : List Stmt) (h : Reached depth s) :
    Reached depth (Stmt.execAll program s).session := by
  induction program generalizing s with
  | nil => exact h
  | cons stmt rest ih =>
      rw [Stmt.execAll]
      cases hresult : (stmt.exec s).result with
      | error fault =>
          rw [Run.andThen_of_error hresult]
          exact h.execute stmt
      | ok values =>
          rw [Run.andThen_of_ok hresult, Run.andThen_done_map]
          exact ih (h.execute stmt)

theorem parseProgram_stage {ts : List Token} {fault : Fault} (h : parseProgram ts = .error fault) :
    fault.stage = .parse := by
  rw [parseProgram] at h
  split at h
  · obtain rfl := Except.error.inj h
    rfl
  · cases h

/-- An interpreted text is refused before anything is run, or it is read and parsed and its program is run. -/
theorem interpret_outcome (s : Session) (source : String) :
    (∃ fault, fault.stage ≠ .evaluation ∧ (s.interpret source).result = .error fault ∧
      (s.interpret source).session = s) ∨
    ∃ ts program, scan source = .ok ts ∧ parseProgram ts = .ok program ∧
      (s.interpret source).result = (Stmt.execAll program s).result ∧
      (s.interpret source).session = (Stmt.execAll program s).session := by
  rw [interpret, withTokens, scan]
  cases Scan.read source with
  | error m =>
      have hstage : m.fault.stage = .lexical := rfl
      exact .inl ⟨_, by rw [hstage]; decide, rfl, rfl⟩
  | ok reading =>
      cases hparse : parseProgram reading.tokens with
      | error fault =>
          refine .inl ⟨fault, ?_, by simp only [hparse]; rfl, by simp only [hparse]; rfl⟩
          rw [parseProgram_stage hparse]
          decide
      | ok program => exact .inr ⟨_, program, rfl, hparse, by simp only [hparse], by simp only [hparse]⟩

/-- What an interpreted text does: it is refused with a place and changes nothing, or its program is run. -/
theorem interpret_cases (s : Session) (source : String) :
    (∃ fault, fault.place?.isSome = true ∧ (s.interpret source).result = .error fault ∧
      (s.interpret source).session = s) ∨
    ∃ program, (s.interpret source).result = (Stmt.execAll program s).result ∧
      (s.interpret source).session = (Stmt.execAll program s).session := by
  obtain ⟨fault, hstage, hrefused⟩ | ⟨_, program, -, -, hrun⟩ := s.interpret_outcome source
  · refine .inl ⟨fault, ?_, hrefused⟩
    cases fault with
    | lexical _ _ | parse _ _ _ => rfl
    | _ => exact absurd rfl hstage
  · exact .inr ⟨program, hrun⟩

theorem Reached.interpret {s : Session} {depth : Nat} (source : String) (h : Reached depth s) :
    Reached depth (s.interpret source).session := by
  rcases s.interpret_cases source with ⟨fault, -, -, hsession⟩ | ⟨program, -, hsession⟩
  · rw [hsession]
    exact h
  · rw [hsession]
    exact h.executeAll program

/-- The session after texts that are interpreted one after another. -/
def interpretAll (s : Session) (sources : List String) : Session :=
  sources.foldl (fun s source => (s.interpret source).session) s

theorem Reached.interpretAll {s : Session} {depth : Nat} (sources : List String) (h : Reached depth s) :
    Reached depth (s.interpretAll sources) := by
  induction sources generalizing s with
  | nil => exact h
  | cons source rest ih => exact ih (h.interpret source)

end Session

/-- The open scopes after a run are those before it, and on the way scopes begin and end in pairs. If the run fails, it is for a reason that has a place. -/
structure Run.Balanced (run : Run (List Value)) (s : Session) : Prop where
  current : run.session.current = s.current
  live : run.session.store.live run.session.current = true
  links : run.session.store.scopes.map Scope.link = s.store.scopes.map Scope.link
  brackets : Brackets s.current.index (run.events.filter Event.isScoping)
  located : ∀ fault, run.result = .error fault → fault ≠ .releasedScope ∧ fault.place?.isSome = true

theorem Fault.ne_releasedScope {fault : Fault} (h : fault.place?.isSome = true) : fault ≠ .releasedScope := by
  rintro rfl
  cases h

theorem Run.Tidy.balanced {run : Run (List Value)} {s : Session} {handles : List Handle} {frames : Frames}
    (h : run.Tidy s handles) (hs : s.Realises handles frames) : run.Balanced s := by
  obtain ⟨frames', hrealises⟩ := h.realises
  have hcurrent := hrealises.current.symm.trans hs.current
  have hlocated : ∀ fault, run.result = .error fault → fault ≠ .releasedScope ∧ fault.place?.isSome = true :=
    fun fault hfault => ⟨Fault.ne_releasedScope (h.located fault hfault), h.located fault hfault⟩
  refine ⟨Option.some.inj hcurrent, hrealises.live_current, hrealises.stacked.links_eq hs.stacked, ?_, hlocated⟩
  rw [hs.index_current]
  exact h.brackets

/-- **Blocks are balanced.** Wherever a program has come to, the current scope is open and as deep as the blocks around it. A statement or program leaves the same scopes open and the same one current, and a block leaves every scope with the names it had, whether they succeed or not. So texts that are interpreted in one session never use a scope that has ended, and their faults have places. -/
theorem blocks_balanced :
    (∀ depth s, Session.Reached depth s → s.AtDepth depth ∧ (∀ stmt : Stmt, (stmt.exec s).Balanced s) ∧
      (∀ program, (Stmt.execAll program s).Balanced s) ∧
      ∀ body span, ((Stmt.block body span).exec s).session.outlines = s.outlines) ∧
    (∀ sources source fault, ((Session.fresh.interpretAll sources).interpret source).result = .error fault →
      fault ≠ .releasedScope ∧ fault.place?.isSome = true) := by
  constructor
  · intro depth s hreached
    obtain ⟨handles, frames, hrealises, hlength⟩ := hreached.realises
    refine ⟨hrealises.atDepth hlength, ?_, ?_, ?_⟩
    · intro stmt
      exact (stmt.exec_tidy hrealises).balanced hrealises
    · intro program
      exact (Stmt.execAll_tidy program hrealises).balanced hrealises
    · intro body span
      exact (Stmt.execAll_tidy body hrealises.enter).leave_outlines hrealises
  · intro sources source fault hfault
    have hreached := Session.Reached.fresh.interpretAll sources
    obtain ⟨handles, frames, hrealises, -⟩ := hreached.realises
    rcases Session.interpret_cases _ source with ⟨refusal, hplace, hresult, -⟩ | ⟨program, hresult, -⟩
    · obtain rfl : refusal = fault := Except.error.inj (hresult.symm.trans hfault)
      exact ⟨Fault.ne_releasedScope hplace, hplace⟩
    · rw [hresult] at hfault
      exact ((Stmt.execAll_tidy program hrealises).balanced hrealises).located fault hfault

/-- A declaration is lost with its block when a block inside fails, and the next text is run outside of both. -/
theorem failing_blocks_balanced :
    let minus : Token := ⟨.subtract, "-", ⟨1, ⟨9, 10⟩⟩, none⟩
    let body : List Stmt := [.var ⟨.identifier, "a", ⟨1, ⟨5, 6⟩⟩, none⟩ none ⟨1, 7⟩,
      .block [.expression (.ofUnary minus (.literal .null ⟨10, 14⟩)) ⟨9, 15⟩] ⟨8, 16⟩]
    let run := (Stmt.block body ⟨0, 17⟩).exec Session.fresh.enter
    let source := "\x7bvar a; \x7b-null;\x7d\x7d"
    run.result = .error (.invalidType ⟨1, ⟨9, 10⟩⟩ "-" [.null]) ∧ run.Balanced Session.fresh.enter ∧
      run.session.outlines = Session.fresh.enter.outlines ∧
      ((Session.fresh.interpretAll [source]).interpret "a=null").result =
        .error (.undefinedVariable ⟨1, ⟨0, 1⟩⟩ "a") ∧
      Fault.undefinedVariable ⟨1, ⟨0, 1⟩⟩ "a" ≠ .releasedScope := by
  intro minus body run source
  obtain ⟨hreached, hsources⟩ := blocks_balanced
  obtain ⟨-, hstatements, -, hblocks⟩ := hreached 1 Session.fresh.enter (.enter .fresh)
  have hfault : ((Session.fresh.interpretAll [source]).interpret "a=null").result =
      .error (.undefinedVariable ⟨1, ⟨0, 1⟩⟩ "a") := by decide +kernel
  exact ⟨rfl, hstatements _, hblocks _ _, hfault, (hsources _ _ _ hfault).1⟩

end Blockscript
