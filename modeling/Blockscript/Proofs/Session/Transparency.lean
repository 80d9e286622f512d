import Blockscript.Proofs.Session.Balance
import Blockscript.Proofs.Session.Related
import Blockscript.Proofs.Session.Scoping

/-!
# Blocks that declare nothing

A block that has no declarations among its own statements may be left away. Its scope stays empty, so that from inside a name is found and assigned where it would be without the block. The blocks in it may declare what they like.

The statements are run twice, in the block and without it. The first run has one scope more, an empty one, below the scopes of all inner blocks; these stand in other positions in the two runs and have other generations. What lies further out is the same in both.
-/

namespace Blockscript

/-! ### A stack with an empty scope in it -/

/-- Two stacks of scopes that differ by an empty scope in the second one. Listed are the scopes from the current one outwards, in pairs; the last pair is the empty scope and the one that it lies in. -/
inductive Scope.Padded : List (Handle × Handle) → List Scope → List Scope → Prop
  | here {handle added : Handle} {enclosing : Option Handle} {b : Bindings} {older : List Scope}
      (numbered : 0 < added.index) :
      Padded [(handle, added)] (⟨handle, enclosing, b⟩ :: older)
        (⟨added, some handle, .empty⟩ :: ⟨handle, enclosing, b⟩ :: older)
  | inside {handle handle' outer outer' : Handle} {pairs : List (Handle × Handle)} {scopes scopes' : List Scope}
      {b : Bindings} (numbered : 0 < handle.index) (numbered' : 0 < handle'.index)
      (below : Padded ((outer, outer') :: pairs) scopes scopes') :
      Padded ((handle, handle') :: (outer, outer') :: pairs)
        (⟨handle, some outer, b⟩ :: scopes) (⟨handle', some outer', b⟩ :: scopes')

namespace Scope.Padded

variable {current current' : Handle} {pairs : List (Handle × Handle)} {scopes scopes' : List Scope}

theorem find?_current (h : Padded ((current, current') :: pairs) scopes scopes') :
    (Scope.find? current scopes).isSome = true := by
  cases h <;> simp [Scope.find?]

theorem find?_current' (h : Padded ((current, current') :: pairs) scopes scopes') :
    (Scope.find? current' scopes').isSome = true := by
  cases h <;> simp [Scope.find?]

theorem get?_eq (h : Padded ((current, current') :: pairs) scopes scopes') (name : String) :
    Scope.get? name current' scopes' = Scope.get? name current scopes := by
  generalize hall : (current, current') :: pairs = all at h
  induction h generalizing current current' pairs with
  | here _ =>
      obtain ⟨⟨⟩, rfl⟩ := List.cons.inj hall
      rw [Scope.get?, if_pos rfl, Bindings.get?_empty]
  | @inside _ _ _ _ _ _ _ b _ _ _ ih =>
      obtain ⟨⟨⟩, rfl⟩ := List.cons.inj hall
      rw [Scope.get?, Scope.get?, if_pos rfl, if_pos rfl]
      cases b.get? name with
      | some value => rfl
      | none => exact ih rfl

/-- Inner scopes that correspond take the same declarations. -/
theorem define? {outer : Handle × Handle} (h : Padded ((current, current') :: outer :: pairs) scopes scopes')
    (name : String) (value : Value) :
    ∃ after after', Scope.define? name value current scopes = some after ∧
      Scope.define? name value current' scopes' = some after' ∧
      Padded ((current, current') :: outer :: pairs) after after' := by
  cases h with
  | inside numbered numbered' below =>
      rw [Scope.define?, Scope.define?, if_pos rfl, if_pos rfl]
      exact ⟨_, _, rfl, rfl, .inside numbered numbered' below⟩

/-- Assigning fails in both stacks or succeeds in both, in the same scope, which is not the empty one. -/
theorem assign? (h : Padded ((current, current') :: pairs) scopes scopes') (name : String) (value : Value) :
    Option.Rel (Padded ((current, current') :: pairs)) (Scope.assign? name value current scopes)
      (Scope.assign? name value current' scopes') := by
  generalize hall : (current, current') :: pairs = all at h
  induction h generalizing current current' pairs with
  | @here handle added enclosing b older numbered =>
      obtain ⟨⟨⟩, rfl⟩ := List.cons.inj hall
      have hempty : Scope.assign? name value added (⟨added, some handle, .empty⟩ :: ⟨handle, enclosing, b⟩ :: older) =
          (Scope.assign? name value handle (⟨handle, enclosing, b⟩ :: older)).map
            (⟨added, some handle, .empty⟩ :: ·) := by
        rw [Scope.assign?, if_pos rfl, Bindings.contains, Bindings.get?_empty]
        rfl
      rw [hempty]
      cases hassign : Scope.assign? name value handle (⟨handle, enclosing, b⟩ :: older) with
      | none => exact .none
      | some after =>
          have houtline := Scope.assign?_outline hassign
          cases after with
          | nil => cases houtline
          | cons top rest =>
              obtain rfl : top.handle = handle := congrArg (·.1.1) (List.cons.inj houtline).1
              exact .some (.here numbered)
  | @inside handle handle' outer outer' pairs' below below' b numbered numbered' hbelow ih =>
      obtain ⟨⟨⟩, rfl⟩ := List.cons.inj hall
      rw [Scope.assign?, Scope.assign?, if_pos rfl, if_pos rfl]
      cases b.contains name with
      | true => exact .some (.inside numbered numbered' hbelow)
      | false =>
          have hafter := ih rfl
          simp only
          generalize Scope.assign? name value outer below = after at hafter ⊢
          generalize Scope.assign? name value outer' below' = after' at hafter ⊢
          cases hafter with
          | none => exact .none
          | some hafter => exact .some (.inside numbered numbered' hafter)

theorem exists_below {inner outer : Handle × Handle} (h : Padded (inner :: outer :: pairs) scopes scopes') :
    ∃ b below below', 0 < inner.1.index ∧ 0 < inner.2.index ∧ scopes = ⟨inner.1, some outer.1, b⟩ :: below ∧
      scopes' = ⟨inner.2, some outer.2, b⟩ :: below' ∧ Padded (outer :: pairs) below below' := by
  cases h with
  | inside numbered numbered' below => exact ⟨_, _, _, numbered, numbered', rfl, rfl, below⟩

theorem length_pos (h : Padded pairs scopes scopes') : 0 < scopes.length ∧ 0 < scopes'.length := by
  cases h <;> exact ⟨Nat.succ_pos _, Nat.succ_pos _⟩

theorem eq_cons (h : Padded [(current, current')] scopes scopes') :
    0 < current'.index ∧ scopes' = ⟨current', some current, .empty⟩ :: scopes := by
  cases h with
  | here numbered => exact ⟨numbered, rfl⟩

end Scope.Padded

/-! ### Two sessions -/

/-- In the second session there is an empty scope more, of those that are listed the outermost. -/
structure Session.Padded (pairs : List (Handle × Handle)) (s s' : Session) : Prop where
  current : pairs.head? = some (s.current, s'.current)
  scopes : Scope.Padded pairs s.store.scopes s'.store.scopes
  nextGeneration : s'.store.nextGeneration = s.store.nextGeneration + 1

/-- The latest scope is ended by leaving it, unless it is the global one. -/
theorem Session.leave_eq {s : Session} {outer : Option Handle} {b : Bindings} {older : List Scope}
    (hscopes : s.store.scopes = ⟨s.current, outer, b⟩ :: older) (hindex : 0 < s.current.index) (previous : Handle) :
    s.leave previous = ⟨{ s.store with scopes := older }, previous⟩ := by
  have hpop : s.store.canPop s.current = true := by
    rw [Store.canPop, Store.live, Store.find?, hscopes]
    simp [Scope.find?, hindex]
  rw [Session.leave, Store.pop, if_pos hpop, hscopes, Scope.below, if_pos rfl]

namespace Session.Padded

variable {pairs : List (Handle × Handle)} {s s' : Session}

theorem scopes_current (h : s.Padded pairs s') :
    Scope.Padded ((s.current, s'.current) :: pairs.tail) s.store.scopes s'.store.scopes := by
  rw [List.cons_head?_tail h.current]
  exact h.scopes

theorem congruence (names : List String) : Congruence names (Padded pairs) where
  get? _ _ name h _ := (h.scopes_current.get?_eq name).symm
  assign := by
    intro s s' name value h _
    have hlive : s.store.live s.current = true := h.scopes_current.find?_current
    have hlive' : s'.store.live s'.current = true := h.scopes_current.find?_current'
    have hrel := h.scopes_current.assign? name.lexeme value
    rw [List.cons_head?_tail h.current] at hrel
    rw [Session.assign, Session.assign, Store.assign, Store.assign, if_pos hlive, if_pos hlive']
    generalize Scope.assign? name.lexeme value s.current s.store.scopes = after at hrel ⊢
    generalize Scope.assign? name.lexeme value s'.current s'.store.scopes = after' at hrel ⊢
    cases hrel with
    | none => exact .failed _ h
    | some hscopes => exact .done value ⟨h.current, hscopes, h.nextGeneration⟩

theorem ne_nil (h : s.Padded pairs s') : pairs ≠ [] := by
  rintro rfl
  cases h.current

theorem define (h : s.Padded pairs s') (hinner : pairs.tail ≠ []) (name : String) (value : Value) :
    (s.define name value).Related (Padded pairs) (s'.define name value) := by
  have hcurrent := h.scopes_current
  obtain ⟨outer, rest, hrest⟩ := List.exists_cons_of_ne_nil hinner
  rw [hrest] at hcurrent
  obtain ⟨after, after', hafter, hafter', hscopes⟩ := hcurrent.define? name value
  rw [← hrest, List.cons_head?_tail h.current] at hscopes
  rw [Session.define, Session.define, Store.define, Store.define, hafter, hafter']
  exact .done () ⟨h.current, hscopes, h.nextGeneration⟩

theorem enter (h : s.Padded pairs s') :
    s.enter.Padded ((s.store.nextHandle, s'.store.nextHandle) :: pairs) s'.enter where
  current := rfl
  scopes := by
    obtain ⟨hnumbered, hnumbered'⟩ := h.scopes.length_pos
    rw [← List.cons_head?_tail h.current]
    exact .inside hnumbered hnumbered' h.scopes_current
  nextGeneration := congrArg (· + 1) h.nextGeneration

theorem leave {inner : Handle × Handle} {previous previous' : Handle} (h : s.Padded (inner :: pairs) s')
    (hprevious : pairs.head? = some (previous, previous')) :
    (s.leave previous).Padded pairs (s'.leave previous') := by
  obtain ⟨hcurrent, hscopes, hgeneration⟩ := h
  obtain rfl := Option.some.inj hcurrent
  cases pairs with
  | nil => cases hprevious
  | cons outer rest =>
      obtain ⟨b, below, below', hnumbered, hnumbered', hstack, hstack', hbelow⟩ := hscopes.exists_below
      rw [Session.leave_eq hstack hnumbered, Session.leave_eq hstack' hnumbered']
      exact ⟨hprevious, hbelow, hgeneration⟩

end Session.Padded

/-! ### Statements -/

theorem Expr.eval_padded (e : Expr) {pairs : List (Handle × Handle)} {s s' : Session} (h : s.Padded pairs s') :
    (e.eval s).Related (Session.Padded pairs) (e.eval s') :=
  e.eval_related (Session.Padded.congruence e.names) (List.Subset.refl _) h

theorem Expr.evalOptional_padded (e : Option Expr) {pairs : List (Handle × Handle)} {s s' : Session}
    (h : s.Padded pairs s') :
    (Expr.evalOptional e s).Related (Session.Padded pairs) (Expr.evalOptional e s') := by
  cases e with
  | none => exact .done Value.null h
  | some e => exact e.eval_padded h

mutual

/-- Where no inner block is open, one run would declare in the empty scope and the other one in the scope around it. In an inner block the two runs declare in scopes that correspond. -/
theorem Stmt.exec_padded (stmt : Stmt) {pairs : List (Handle × Handle)} {s s' : Session} (h : s.Padded pairs s')
    (hdeclares : pairs.tail = [] → stmt.declares = []) :
    (stmt.exec s).Related (Session.Padded pairs) (stmt.exec s') := by
  cases stmt with
  | expression e span =>
      apply Run.Related.andThen (e.eval_padded h)
      intro value t t' ht
      exact .done _ ht
  | var name initializer span =>
      have hinner : pairs.tail ≠ [] := by
        intro hnone
        cases hdeclares hnone
      rw [Stmt.exec, Stmt.exec]
      apply Run.Related.andThen (Expr.evalOptional_padded initializer h)
      intro value t t' ht
      apply Run.Related.andThen (ht.define hinner name.lexeme value)
      intro _ u u' hu
      exact .done [] hu
  | block body span =>
      have hbody := Stmt.execAll_padded body h.enter fun hnone => absurd hnone h.ne_nil
      exact ⟨hbody.result, hbody.session.leave h.current⟩

theorem Stmt.execAll_padded (stmts : List Stmt) {pairs : List (Handle × Handle)} {s s' : Session}
    (h : s.Padded pairs s') (hdeclares : pairs.tail = [] → ∀ stmt ∈ stmts, stmt.declares = []) :
    (Stmt.execAll stmts s).Related (Session.Padded pairs) (Stmt.execAll stmts s') := by
  cases stmts with
  | nil => exact .done [] h
  | cons stmt rest =>
      apply Run.Related.andThen (Stmt.exec_padded stmt h fun hnone => hdeclares hnone stmt List.mem_cons_self)
      intro values t t' ht
      have hrest : pairs.tail = [] → ∀ later ∈ rest, later.declares = [] :=
        fun hnone later hlater => hdeclares hnone later (List.mem_cons_of_mem _ hlater)
      apply Run.Related.andThen (Stmt.execAll_padded rest ht hrest)
      intro more u u' hu
      exact .done (values ++ more) hu

end

/-! ### Values up to a fault -/

mutual

/-- The values that a statement puts out until it ends, be it with a fault. -/
def Stmt.printed : Stmt → Session → List Value
  | .expression e _, s =>
    match (e.eval s).result with
    | .ok value => if e.isAssign then [] else [value]
    | .error _ => []
  | .var _ _ _, _ => []
  | .block body _, s => Stmt.printedAll body s.enter

def Stmt.printedAll : List Stmt → Session → List Value
  | [], _ => []
  | stmt :: rest, s =>
    match (stmt.exec s).result with
    | .ok _ => stmt.printed s ++ Stmt.printedAll rest (stmt.exec s).session
    | .error _ => stmt.printed s

end

theorem Run.exists_of_andThen_ok {α β : Type} {run : Run α} {next : α → Session → Run β} {last : β}
    (h : (run.andThen next).result = .ok last) :
    ∃ value, run.result = .ok value ∧ (next value run.session).result = .ok last := by
  cases hrun : run.result with
  | error fault =>
      rw [andThen_of_error hrun] at h
      cases h
  | ok value =>
      rw [andThen_of_ok hrun] at h
      exact ⟨value, rfl, h⟩

mutual

/-- A statement that succeeds has put out the values that it answers. -/
theorem Stmt.printed_of_ok (stmt : Stmt) {s : Session} {values : List Value}
    (h : (stmt.exec s).result = .ok values) : stmt.printed s = values := by
  cases stmt with
  | expression e span =>
      obtain ⟨value, hvalue, hlast⟩ := Run.exists_of_andThen_ok h
      rw [Stmt.printed, hvalue]
      exact Except.ok.inj hlast
  | var name initializer span =>
      rw [Stmt.exec] at h
      obtain ⟨value, -, hlast⟩ := Run.exists_of_andThen_ok h
      obtain ⟨_, -, hnone⟩ := Run.exists_of_andThen_ok hlast
      exact Except.ok.inj hnone
  | block body span => exact Stmt.printedAll_of_ok body h

theorem Stmt.printedAll_of_ok (stmts : List Stmt) {s : Session} {values : List Value}
    (h : (Stmt.execAll stmts s).result = .ok values) : Stmt.printedAll stmts s = values := by
  cases stmts with
  | nil => exact Except.ok.inj h
  | cons stmt rest =>
      obtain ⟨first, hfirst, hlast⟩ := Run.exists_of_andThen_ok h
      obtain ⟨more, hmore, hvalues⟩ := Run.exists_of_andThen_ok hlast
      rw [Stmt.printedAll, hfirst, Stmt.printed_of_ok stmt hfirst]
      exact (congrArg (first ++ ·) (Stmt.printedAll_of_ok rest hmore)).trans (Except.ok.inj hvalues)

end

mutual

theorem Stmt.printed_padded (stmt : Stmt) {pairs : List (Handle × Handle)} {s s' : Session} (h : s.Padded pairs s') :
    stmt.printed s = stmt.printed s' := by
  cases stmt with
  | expression e span =>
      rw [Stmt.printed, Stmt.printed, (e.eval_padded h).result]
  | var name initializer span => rfl
  | block body span => exact Stmt.printedAll_padded body h.enter fun hnone => absurd hnone h.ne_nil

theorem Stmt.printedAll_padded (stmts : List Stmt) {pairs : List (Handle × Handle)} {s s' : Session}
    (h : s.Padded pairs s') (hdeclares : pairs.tail = [] → ∀ stmt ∈ stmts, stmt.declares = []) :
    Stmt.printedAll stmts s = Stmt.printedAll stmts s' := by
  cases stmts with
  | nil => rfl
  | cons stmt rest =>
      have hfirst := Stmt.exec_padded stmt h fun hnone => hdeclares hnone stmt List.mem_cons_self
      have hrest := Stmt.printedAll_padded rest hfirst.session
        fun hnone later hlater => hdeclares hnone later (List.mem_cons_of_mem _ hlater)
      rw [Stmt.printedAll, Stmt.printedAll, hfirst.result, Stmt.printed_padded stmt h, hrest]

end

/-! ### Blocks -/

/-- A session and the same session inside an empty block. -/
theorem Session.Realises.padded {s : Session} {handles : List Handle} {frames : Frames}
    (h : s.Realises handles frames) : s.Padded [(s.current, s.store.nextHandle)] s.enter where
  current := rfl
  scopes := by
    have hstacked := h.stacked_current
    have hnumbered : 0 < s.store.nextHandle.index := by
      change 0 < s.store.scopes.length
      rw [h.length_scopes]
      exact Nat.succ_pos _
    change Scope.Padded _ _ (⟨s.store.nextHandle, some s.current, .empty⟩ :: s.store.scopes)
    generalize s.store.nextHandle = added at hnumbered
    generalize s.store.scopes = scopes at hstacked ⊢
    generalize s.current = current at hstacked ⊢
    generalize handles.tail = outside at hstacked
    cases hstacked <;> exact .here hnumbered
  nextGeneration := rfl

/-- **A block that declares nothing is transparent.** Wherever a program has come to, take statements none of which is a declaration, though blocks among them may declare. Run as a block or without it they print the same values, also up to a fault, and have the same outcome. The same scopes are there as before, and either way they bind the same names to the same values; the block has only used up a generation. -/
theorem block_transparent {depth : Nat} {s : Session} (h : Session.Reached depth s) {body : List Stmt}
    (hbody : ∀ name initializer span, Stmt.var name initializer span ∉ body) (span : Span) :
    let block := (Stmt.block body span).exec s
    let direct := Stmt.execAll body s
    block.result = direct.result ∧
      (Stmt.block body span).printed s = Stmt.printedAll body s ∧
      block.session.current = s.current ∧ direct.session.current = s.current ∧
      direct.session.store.scopes.map Scope.link = s.store.scopes.map Scope.link ∧
      block.session.store.scopes = direct.session.store.scopes ∧
      block.session.store.nextGeneration = direct.session.store.nextGeneration + 1 := by
  intro block direct
  obtain ⟨handles, frames, hrealises, -⟩ := h.realises
  have hdeclares : ∀ stmt ∈ body, stmt.declares = [] := by
    intro stmt hstmt
    cases stmt with
    | var name initializer span => exact absurd hstmt (hbody name initializer span)
    | _ => rfl
  have hbefore := hrealises.padded
  have hrun := Stmt.execAll_padded body hbefore fun _ => hdeclares
  have hprinted := Stmt.printedAll_padded body hbefore fun _ => hdeclares
  have hbalanced := (Stmt.execAll_tidy body hrealises).balanced hrealises
  have hscopes := hrun.session.scopes
  obtain ⟨hdirect, hinner⟩ := Prod.mk.inj (Option.some.inj hrun.session.current)
  rw [hinner] at hscopes
  obtain ⟨hnumbered, hstack⟩ := hscopes.eq_cons
  have hleave := Session.leave_eq hstack hnumbered s.current
  change block.session = _ at hleave
  rw [hleave]
  exact ⟨hrun.result.symm, hprinted.symm, rfl, hdirect.symm, hbalanced.links, rfl, hrun.session.nextGeneration⟩

/-- The inner block declares a name again, assigns it and prints it; the statement after it assigns the outer one and fails at its second operand. -/
theorem block_transparent_shadowed :
    let a : Token := ⟨.identifier, "a", ⟨1, ⟨0, 1⟩⟩, none⟩
    let plus : Token := ⟨.add, "+", ⟨1, ⟨2, 3⟩⟩, none⟩
    let minus : Token := ⟨.subtract, "-", ⟨1, ⟨4, 5⟩⟩, none⟩
    let span : Span := ⟨0, 6⟩
    let assigned (value : Value) : Expr := .assign a (.literal value span) span
    let s := (Stmt.execAll [.var a none span] .fresh).session.enter
    let body : List Stmt := [
      .block [.var a none span, .expression (assigned (.bool false)) span, .expression (.reference a) span] span,
      .expression (.binary (assigned (.bool true)) plus (.unary minus (.literal .null span) span) span) span]
    let block := (Stmt.block body span).exec s
    block.result = .error (.invalidType ⟨1, ⟨4, 5⟩⟩ "-" [.null]) ∧
      (Stmt.execAll body s).result = block.result ∧
      (Stmt.block body span).printed s = [.bool false] ∧
      Stmt.printedAll body s = (Stmt.block body span).printed s ∧
      block.session.store.get? s.current "a" = some (.bool true) ∧
      block.session.store.scopes = (Stmt.execAll body s).session.store.scopes := by
  intro a plus minus span assigned s body block
  have hreached : Session.Reached 1 s := (Session.Reached.fresh.executeAll _).enter
  have hbody : ∀ name initializer span, Stmt.var name initializer span ∉ body := by simp [body]
  obtain ⟨hresult, hprinted, -, -, -, hscopes, -⟩ := block_transparent hreached hbody span
  exact ⟨by decide, hresult.symm, by decide, hprinted.symm, by decide, hscopes⟩

end Blockscript
