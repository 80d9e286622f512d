import Blockscript.Event
import Blockscript.Scope.Store

/-!
# Sessions and runs

A session is a store and the scope in which the next statement runs. A run of a program answers a result or a fault, and in either case the session it leaves and the events on the way.
-/

namespace Blockscript

structure Session where
  store : Store
  current : Handle
deriving DecidableEq, Inhabited

namespace Session

/-- A session that has run nothing. -/
def fresh : Session := ⟨.fresh, .global⟩

/-- Opens a scope inside the current one and goes there. -/
def enter (s : Session) : Session :=
  ⟨s.store.push s.current, s.store.nextHandle⟩

/-- Ends the current scope and goes to `previous`. -/
def leave (s : Session) (previous : Handle) : Session :=
  ⟨s.store.pop s.current, previous⟩

/-- What `enter` logs. -/
def enterEvents (s : Session) : List Event :=
  [.pushed s.store.nextHandle.index s.current.index]

/-- What `leave` logs. -/
def leaveEvents (s : Session) : List Event :=
  if s.store.canPop s.current then [.popped s.current.index] else []

end Session

/-- The outcome of running something in a session. -/
structure Run (α : Type) where
  result : Except Fault α
  session : Session
  events : List Event := []

namespace Run

variable {α β : Type}

def done (value : α) (s : Session) : Run α := ⟨.ok value, s, []⟩

def failed (fault : Fault) (s : Session) : Run α := ⟨.error fault, s, []⟩

/-- The outcome of a step that leaves the session alone. -/
def ofExcept (result : Except Fault α) (s : Session) : Run α := ⟨result, s, []⟩

/-- Continues with the value and the session of a run; a fault ends both. -/
def andThen (r : Run α) (next : α → Session → Run β) : Run β :=
  match r.result with
  | .error fault => ⟨.error fault, r.session, r.events⟩
  | .ok value =>
    let after := next value r.session
    ⟨after.result, after.session, r.events ++ after.events⟩

@[simp] theorem andThen_done (value : α) (s : Session) (next : α → Session → Run β) :
    (done value s).andThen next = next value s := rfl

@[simp] theorem andThen_failed (fault : Fault) (s : Session) (next : α → Session → Run β) :
    (failed fault s : Run α).andThen next = failed fault s := rfl

theorem andThen_of_error {r : Run α} {next : α → Session → Run β} {fault : Fault} (h : r.result = .error fault) :
    r.andThen next = ⟨.error fault, r.session, r.events⟩ := by
  rw [andThen, h]

theorem andThen_of_ok {r : Run α} {next : α → Session → Run β} {value : α} (h : r.result = .ok value) :
    r.andThen next = ⟨(next value r.session).result, (next value r.session).session,
      r.events ++ (next value r.session).events⟩ := by
  rw [andThen, h]

theorem andThen_done_map (f : α → β) (r : Run α) :
    (r.andThen fun value s => .done (f value) s) = ⟨r.result.map f, r.session, r.events⟩ := by
  cases hresult : r.result with
  | error fault => rw [andThen_of_error hresult, Except.map]
  | ok value =>
    rw [andThen_of_ok hresult, Except.map]
    simp only [done, List.append_nil]

theorem andThen_assoc {γ : Type} (r : Run α) (f : α → Session → Run β) (g : β → Session → Run γ) :
    (r.andThen f).andThen g = r.andThen fun value s => (f value s).andThen g := by
  obtain ⟨result, s, events⟩ := r
  cases result with
  | error fault => rfl
  | ok value => cases hf : (f value s).result <;> simp [andThen, hf, List.append_assoc]

end Run

end Blockscript
