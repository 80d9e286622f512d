import Mathlib.Logic.Equiv.Basic
import Blockscript.Proofs.Scope.Order
import Blockscript.Session.Eval

/-!
# Names up to renaming

A session compares names and does nothing else with them. Exchange the names for others, different ones for different ones, in a program and in everything that the scopes bind. The program then prints what it printed before, or fails for the same reason, and it leaves the same scopes under the new names.

A binding is found under its new name exactly where it was found under the old one, so renaming commutes with every operation of a store. For programs this is carried along from one run to the next.
-/

namespace Blockscript

variable {r : String → String}

/-! ### Renaming programs -/

def Token.rename (r : String → String) (t : Token) : Token :=
  { t with lexeme := r t.lexeme }

/-- Renames the variables of an expression. The texts of operators stay. -/
def Expr.rename (r : String → String) : Expr → Expr
  | .literal value span => .literal value span
  | .grouping inner span => .grouping (inner.rename r) span
  | .unary operator right span => .unary operator (right.rename r) span
  | .binary left operator right span => .binary (left.rename r) operator (right.rename r) span
  | .reference name => .reference (name.rename r)
  | .assign name value span => .assign (name.rename r) (value.rename r) span

mutual

def Stmt.rename (r : String → String) : Stmt → Stmt
  | .expression e span => .expression (e.rename r) span
  | .var name initializer span => .var (name.rename r) (initializer.map (Expr.rename r)) span
  | .block body span => .block (Stmt.renameAll r body) span

def Stmt.renameAll (r : String → String) : List Stmt → List Stmt
  | [] => []
  | stmt :: rest => stmt.rename r :: Stmt.renameAll r rest

end

/-! ### Renaming sessions and runs -/

def Bindings.rename (r : String → String) (b : Bindings) : Bindings :=
  ⟨b.entries.map fun entry => (r entry.1, entry.2)⟩

def Scope.rename (r : String → String) (s : Scope) : Scope :=
  { s with bindings := s.bindings.rename r }

def Store.rename (r : String → String) (st : Store) : Store :=
  { st with scopes := st.scopes.map (Scope.rename r) }

def Session.rename (r : String → String) (s : Session) : Session :=
  { s with store := s.store.rename r }

/-- The same fault about the renamed variable. -/
def Fault.rename (r : String → String) : Fault → Fault
  | .undefinedVariable place name => .undefinedVariable place (r name)
  | fault => fault

def Event.rename (r : String → String) : Event → Event
  | .unresolved name line => .unresolved (r name) line
  | event => event

def Run.rename {α : Type} (r : String → String) (run : Run α) : Run α :=
  ⟨run.result.mapError (Fault.rename r), run.session.rename r, run.events.map (Event.rename r)⟩

/-! ### Stores -/

namespace Bindings

theorem get?_rename (hr : Function.Injective r) (b : Bindings) (name : String) :
    (b.rename r).get? (r name) = b.get? name := by
  obtain ⟨entries⟩ := b
  rw [rename, get?, get?]
  induction entries with
  | nil => rfl
  | cons entry rest ih =>
      rw [List.map_cons, entryValue?, entryValue?, ih]
      simp only [hr.eq_iff]

theorem contains_rename (hr : Function.Injective r) (b : Bindings) (name : String) :
    (b.rename r).contains (r name) = b.contains name := by
  rw [contains, contains, get?_rename hr]

theorem insertEntry_rename (hr : Function.Injective r) (name : String) (value : Value)
    (entries : List (String × Value)) :
    insertEntry (r name) value (entries.map fun entry => (r entry.1, entry.2)) =
      (insertEntry name value entries).map fun entry => (r entry.1, entry.2) := by
  induction entries with
  | nil => rfl
  | cons entry rest ih =>
      rw [List.map_cons, insertEntry, insertEntry, ih]
      simp only [hr.eq_iff]
      split <;> rfl

theorem insert_rename (hr : Function.Injective r) (b : Bindings) (name : String) (value : Value) :
    (b.rename r).insert (r name) value = (b.insert name value).rename r :=
  congrArg Bindings.mk (insertEntry_rename hr name value b.entries)

end Bindings

namespace Scope

theorem handle_rename (s : Scope) : (s.rename r).handle = s.handle := rfl

theorem get?_rename (hr : Function.Injective r) (name : String) (handle : Handle) (scopes : List Scope) :
    get? (r name) handle (scopes.map (rename r)) = get? name handle scopes := by
  induction scopes generalizing handle with
  | nil => rfl
  | cons s older ih =>
      rw [List.map_cons, get?, get?]
      simp only [rename, Bindings.get?_rename hr, ih]

theorem define?_rename (hr : Function.Injective r) (name : String) (value : Value) (handle : Handle)
    (scopes : List Scope) :
    define? (r name) value handle (scopes.map (rename r)) =
      (define? name value handle scopes).map (List.map (rename r)) := by
  induction scopes with
  | nil => rfl
  | cons s older ih =>
      rw [List.map_cons, define?, define?, ih, handle_rename]
      by_cases hhandle : s.handle = handle
      · rw [if_pos hhandle, if_pos hhandle, Option.map_some, List.map_cons, rename, rename, Bindings.insert_rename hr]
      · rw [if_neg hhandle, if_neg hhandle, Option.map_map, Option.map_map]
        rfl

theorem assign?_rename (hr : Function.Injective r) (name : String) (value : Value) (handle : Handle)
    (scopes : List Scope) :
    assign? (r name) value handle (scopes.map (rename r)) =
      (assign? name value handle scopes).map (List.map (rename r)) := by
  induction scopes generalizing handle with
  | nil => rfl
  | cons s older ih =>
      have hbelow : ∀ start, (assign? (r name) value start (older.map (rename r))).map (s.rename r :: ·) =
          ((assign? name value start older).map (s :: ·)).map (List.map (rename r)) := by
        intro start
        rw [ih, Option.map_map, Option.map_map]
        rfl
      rw [List.map_cons, assign?, assign?, handle_rename]
      by_cases hhandle : s.handle = handle
      · have hcontains : (s.rename r).bindings.contains (r name) = s.bindings.contains name :=
          s.bindings.contains_rename hr name
        have hlink : (s.rename r).enclosing = s.enclosing := rfl
        rw [if_pos hhandle, if_pos hhandle, hcontains, hlink]
        cases s.bindings.contains name with
        | true => simp only [Option.map_some, List.map_cons, rename, Bindings.insert_rename hr]
        | false =>
            cases s.enclosing with
            | none => rfl
            | some outer => exact hbelow outer
      · rw [if_neg hhandle, if_neg hhandle]
        exact hbelow handle

theorem below_rename (handle : Handle) (scopes : List Scope) :
    below handle (scopes.map (rename r)) = (below handle scopes).map (rename r) := by
  induction scopes with
  | nil => rfl
  | cons s older ih =>
      rw [List.map_cons, below, below, ih, handle_rename]
      split <;> rfl

end Scope

namespace Store

theorem get?_rename (hr : Function.Injective r) (st : Store) (handle : Handle) (name : String) :
    (st.rename r).get? handle (r name) = st.get? handle name :=
  Scope.get?_rename hr name handle st.scopes

theorem live_rename (st : Store) (handle : Handle) : (st.rename r).live handle = st.live handle := by
  rw [live, live, find?, find?, rename, Scope.find?_map Scope.handle_rename, Option.isSome_map]

theorem canPop_rename (st : Store) (handle : Handle) : (st.rename r).canPop handle = st.canPop handle := by
  rw [canPop, canPop, live_rename]

theorem nextHandle_rename (st : Store) : (st.rename r).nextHandle = st.nextHandle := by
  rw [nextHandle, nextHandle, rename, List.length_map]

theorem push_rename (st : Store) (enclosing : Handle) :
    (st.rename r).push enclosing = (st.push enclosing).rename r := by
  rw [push, push, nextHandle_rename]
  rfl

theorem pop_rename (st : Store) (handle : Handle) : (st.rename r).pop handle = (st.pop handle).rename r := by
  rw [pop, pop, canPop_rename]
  split
  · rw [rename, rename, Scope.below_rename]
  · rfl

theorem define_rename (hr : Function.Injective r) (st : Store) (handle : Handle) (name : String) (value : Value) :
    (st.rename r).define handle (r name) value =
      ((st.define handle name value).map (rename r)).mapError (Fault.rename r) := by
  rw [define, define, rename, Scope.define?_rename hr]
  cases Scope.define? name value handle st.scopes <;> rfl

theorem assign_rename (hr : Function.Injective r) (st : Store) (handle : Handle) (name : Token) (value : Value) :
    (st.rename r).assign handle (name.rename r) value =
      ((st.assign handle name value).map (rename r)).mapError (Fault.rename r) := by
  have hscopes : Scope.assign? (name.rename r).lexeme value handle (st.rename r).scopes =
      (Scope.assign? name.lexeme value handle st.scopes).map (List.map (Scope.rename r)) :=
    Scope.assign?_rename hr name.lexeme value handle st.scopes
  rw [assign, assign, live_rename, hscopes]
  cases st.live handle with
  | false => rfl
  | true => cases Scope.assign? name.lexeme value handle st.scopes <;> rfl

end Store

/-! ### Runs -/

namespace Session

theorem enter_rename (s : Session) : (s.rename r).enter = s.enter.rename r := by
  rw [enter, enter, rename, rename, Store.push_rename, Store.nextHandle_rename]

theorem leave_rename (s : Session) (previous : Handle) : (s.rename r).leave previous = (s.leave previous).rename r := by
  rw [leave, leave, rename, rename, Store.pop_rename]

theorem enterEvents_rename (s : Session) : (s.rename r).enterEvents = s.enterEvents.map (Event.rename r) := by
  rw [enterEvents, enterEvents, rename, Store.nextHandle_rename]
  rfl

theorem leaveEvents_rename (s : Session) : (s.rename r).leaveEvents = s.leaveEvents.map (Event.rename r) := by
  rw [leaveEvents, leaveEvents, rename, Store.canPop_rename]
  split <;> rfl

end Session

theorem Run.rename_andThen {α β : Type} {run renamed : Run α} {next next' : α → Session → Run β}
    (h : renamed = run.rename r) (hnext : ∀ value s, next' value (s.rename r) = (next value s).rename r) :
    renamed.andThen next' = (run.andThen next).rename r := by
  subst h
  cases hresult : run.result with
  | error fault =>
      have hrenamed : (run.rename r).result = .error (fault.rename r) := by rw [rename, hresult, Except.mapError]
      rw [andThen_of_error hresult, andThen_of_error hrenamed]
      rfl
  | ok value =>
      have hrenamed : (run.rename r).result = .ok value := by rw [rename, hresult, Except.mapError]
      have hafter : next' value (run.rename r).session = (next value run.session).rename r := hnext value run.session
      rw [andThen_of_ok hresult, andThen_of_ok hrenamed, hafter]
      simp only [rename, List.map_append]

/-- Operators neither read nor bind names. -/
theorem Operator.mapError_rename {result : Except Fault Value} {operator : Token}
    (h : ∀ fault, result = .error fault → ∃ operands, fault = mistyped operator operands) :
    result.mapError (Fault.rename r) = result := by
  cases result with
  | ok value => rfl
  | error fault =>
      obtain ⟨operands, rfl⟩ := h fault rfl
      rfl

theorem Run.ofExcept_rename {result : Except Fault Value} {operator : Token}
    (h : ∀ fault, result = .error fault → ∃ operands, fault = Operator.mistyped operator operands) (s : Session) :
    Run.ofExcept result (s.rename r) = (Run.ofExcept result s).rename r := by
  rw [ofExcept, ofExcept, rename, Operator.mapError_rename h]
  rfl

theorem Session.define_rename (hr : Function.Injective r) (s : Session) (name : String) (value : Value) :
    (s.rename r).define (r name) value = (s.define name value).rename r := by
  have hdefine : (s.rename r).store.define (s.rename r).current (r name) value =
      ((s.store.define s.current name value).map (Store.rename r)).mapError (Fault.rename r) :=
    s.store.define_rename hr s.current name value
  rw [define, define, hdefine]
  cases s.store.define s.current name value <;> rfl

theorem Session.assign_rename (hr : Function.Injective r) (s : Session) (name : Token) (value : Value) :
    (s.rename r).assign (name.rename r) value = (s.assign name value).rename r := by
  have hassign : (s.rename r).store.assign (s.rename r).current (name.rename r) value =
      ((s.store.assign s.current name value).map (Store.rename r)).mapError (Fault.rename r) :=
    s.store.assign_rename hr s.current name value
  rw [Session.assign, Session.assign, hassign]
  cases s.store.assign s.current name value <;> rfl

theorem Expr.eval_rename (hr : Function.Injective r) (e : Expr) (s : Session) :
    (e.rename r).eval (s.rename r) = (e.eval s).rename r := by
  induction e generalizing s with
  | literal value span => rfl
  | grouping inner span ih => exact ih s
  | unary operator right span ih =>
      apply Run.rename_andThen (ih s)
      intro value s'
      exact Run.ofExcept_rename (fun fault h => ⟨_, Operator.applyUnary_error h⟩) s'
  | binary left operator right span ihleft ihright =>
      apply Run.rename_andThen (ihleft s)
      intro a s'
      apply Run.rename_andThen (ihright s')
      intro b s''
      exact Run.ofExcept_rename (fun fault h => ⟨_, Operator.applyBinary_error h⟩) s''
  | reference name =>
      have hget : (s.rename r).store.get? (s.rename r).current (name.rename r).lexeme =
          s.store.get? s.current name.lexeme := s.store.get?_rename hr s.current name.lexeme
      rw [rename, eval, eval, hget]
      cases s.store.get? s.current name.lexeme <;> rfl
  | assign name inner span ih =>
      apply Run.rename_andThen (ih s)
      intro value s'
      exact s'.assign_rename hr name value

theorem Expr.evalOptional_rename (hr : Function.Injective r) (e : Option Expr) (s : Session) :
    Expr.evalOptional (e.map (Expr.rename r)) (s.rename r) = (Expr.evalOptional e s).rename r := by
  cases e with
  | none => rfl
  | some e => exact e.eval_rename hr s

theorem Expr.isAssign_rename (e : Expr) : (e.rename r).isAssign = e.isAssign := by
  cases e <;> rfl

mutual

theorem Stmt.exec_rename (hr : Function.Injective r) (stmt : Stmt) (s : Session) :
    (stmt.rename r).exec (s.rename r) = (stmt.exec s).rename r := by
  cases stmt with
  | expression e span =>
      rw [Stmt.rename, Stmt.exec, Stmt.exec, Expr.isAssign_rename]
      apply Run.rename_andThen (e.eval_rename hr s)
      intro value s'
      rfl
  | var name initializer span =>
      rw [Stmt.rename, Stmt.exec, Stmt.exec]
      apply Run.rename_andThen (Expr.evalOptional_rename hr initializer s)
      intro value s'
      apply Run.rename_andThen (s'.define_rename hr name.lexeme value)
      intro _ s''
      rfl
  | block body span =>
      have hbody := Stmt.execAll_rename hr body s.enter
      rw [Stmt.rename, Stmt.exec, Stmt.exec, Session.enter_rename, Session.enterEvents_rename, hbody]
      simp only [Run.rename, Session.leave_rename, Session.leaveEvents_rename, List.map_append]
      rfl

theorem Stmt.execAll_rename (hr : Function.Injective r) (program : List Stmt) (s : Session) :
    Stmt.execAll (Stmt.renameAll r program) (s.rename r) = (Stmt.execAll program s).rename r := by
  cases program with
  | nil => rfl
  | cons stmt rest =>
      rw [Stmt.renameAll, Stmt.execAll, Stmt.execAll]
      apply Run.rename_andThen (Stmt.exec_rename hr stmt s)
      intro values s'
      apply Run.rename_andThen (Stmt.execAll_rename hr rest s')
      intro more s''
      rfl

end

/-- **Names matter only up to renaming.** Rename the variables of a program and of a session, different ones to different names. The program then prints the same values, or it fails in the same way at the same place, an undefined variable being cited by its new name. It leaves the renamed session, and the same log but for the names in it. -/
theorem renamed_program_runs_alike (hr : Function.Injective r) (program : List Stmt) (s : Session) :
    let run := Stmt.execAll program s
    let renamed := Stmt.execAll (Stmt.renameAll r program) (s.rename r)
    renamed.result = run.result.mapError (Fault.rename r) ∧ renamed.session = run.session.rename r ∧
      renamed.events = run.events.map (Event.rename r) := by
  intro run renamed
  have hrun : renamed = run.rename r := Stmt.execAll_rename hr program s
  rw [hrun]
  exact ⟨rfl, rfl, rfl⟩

/-- Two names are exchanged. Inside a block the second one is declared and the first one assigned; behind the block the second one is undefined. -/
theorem renamed_program_runs_alike_exchanged :
    let r : String → String := Equiv.swap "x" "y"
    let x (start : Nat) : Token := ⟨.identifier, "x", ⟨1, ⟨start, start + 1⟩⟩, none⟩
    let y (start : Nat) : Token := ⟨.identifier, "y", ⟨1, ⟨start, start + 1⟩⟩, none⟩
    let s := (Stmt.execAll [.var (x 4) none ⟨0, 6⟩] .fresh).session
    let program : List Stmt := [
      .block [.var (y 5) (some (.literal (.bool true) ⟨7, 11⟩)) ⟨1, 12⟩,
        .expression (.assign (x 12) (.reference (y 14)) ⟨12, 15⟩) ⟨12, 16⟩] ⟨0, 17⟩,
      .expression (.assign (y 17) (.reference (x 19)) ⟨17, 20⟩) ⟨17, 20⟩]
    let run := Stmt.execAll program s
    let renamed := Stmt.execAll (Stmt.renameAll r program) (s.rename r)
    Function.Injective r ∧ run.result = .error (.undefinedVariable ⟨1, ⟨17, 18⟩⟩ "y") ∧
      renamed.result = .error (.undefinedVariable ⟨1, ⟨17, 18⟩⟩ "x") ∧
      renamed.session = run.session.rename r ∧ renamed.session.store.get? .global "y" = some (.bool true) := by
  intro r x y s program run renamed
  have hr : Function.Injective r := (Equiv.swap "x" "y").injective
  obtain ⟨hresult, hsession, -⟩ := renamed_program_runs_alike hr program s
  have hrun : run.result = .error (.undefinedVariable ⟨1, ⟨17, 18⟩⟩ "y") := by decide
  have hvalue : run.session.store.get? .global "x" = some (.bool true) := by decide
  have hx : r "x" = "y" := Equiv.swap_apply_left "x" "y"
  have hy : r "y" = "x" := Equiv.swap_apply_right "x" "y"
  refine ⟨hr, hrun, ?_, hsession, ?_⟩
  · rw [hresult, hrun, Except.mapError, Fault.rename, hy]
  · rw [hsession, Session.rename, ← hx, Store.get?_rename hr]
    exact hvalue

end Blockscript
