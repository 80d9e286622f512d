import Mathlib.Logic.Function.Basic
import Blockscript.Proofs.Scope.Client
import Blockscript.Proofs.Scope.Frame

/-!
# A store that never uses a name twice

Scopes are numbered in the order in which they are opened, the global one being number zero. A number is given out once and stays with its scope when the scope has ended. A scope is linked to an earlier one, which may have ended already. Ending a scope ends exactly those existing ones that were opened after it.

Nothing is kept in places that could be used again, so there are no generations to compare.
-/

namespace Blockscript

/-- All scopes that were ever opened, by their numbers. -/
structure Registry where
  count : Nat
  parent : (id : Nat) → Option (Fin id)
  alive : Nat → Bool
  bindings : Nat → Frame

namespace Registry

def fresh : Registry where
  count := 1
  parent _ := none
  alive id := id == 0
  bindings _ := ∅

/-- Opens a scope under the next number. -/
def push (r : Registry) (scope : Nat) : Registry where
  count := r.count + 1
  parent := Function.update r.parent r.count (if h : scope < r.count then some ⟨scope, h⟩ else none)
  alive := Function.update r.alive r.count true
  bindings := Function.update r.bindings r.count ∅

def pop (r : Registry) (scope : Nat) : Registry :=
  if scope ≠ 0 ∧ r.alive scope then { r with alive := fun id => r.alive id && decide (id < scope) } else r

def bind (r : Registry) (scope : Nat) (name : String) (value : Value) : Registry :=
  { r with bindings := Function.update r.bindings scope ((r.bindings scope).insert name value) }

/-- The existing scopes from one outwards, up to the first that has ended. -/
def outward (r : Registry) (scope : Nat) : List Nat :=
  if r.alive scope then
    match r.parent scope with
    | some outer => scope :: r.outward outer
    | none => [scope]
  else []
termination_by scope
decreasing_by exact outer.isLt

/-- The first scope outwards that binds a name. -/
def holder? (r : Registry) (scope : Nat) (name : String) : Option Nat :=
  (r.outward scope).find? fun id => name ∈ r.bindings id

def get? (r : Registry) (scope : Nat) (name : String) : Option Value :=
  (r.holder? scope name).bind fun id => (r.bindings id).lookup name

def define (r : Registry) (scope : Nat) (name : String) (value : Value) : Except Fault Registry :=
  if r.alive scope then .ok (r.bind scope name value) else .error .releasedScope

def assign (r : Registry) (scope : Nat) (name : Token) (value : Value) : Except Fault Registry :=
  if r.alive scope then
    match r.holder? scope name.lexeme with
    | some id => .ok (r.bind id name.lexeme value)
    | none => .error (.undefinedVariable name.place name.lexeme)
  else .error .releasedScope

def enclosing (r : Registry) (scope : Nat) : Option Nat :=
  if r.alive scope then (r.parent scope).map Fin.val else none

def serve (r : Registry) : Request Nat → Registry × Reply Nat
  | .push scope => (r.push scope, .opened r.count)
  | .pop scope => (r.pop scope, .done)
  | .define scope name value => Reply.ofChange r (r.define scope name value)
  | .assign scope name value => Reply.ofChange r (r.assign scope name value)
  | .get scope name => (r, .found (r.get? scope name))
  | .enclosing scope => (r, .link (r.enclosing scope))
  | .live scope => (r, .liveness (r.alive scope))

/-- The replies to requests one after another. -/
def replies (r : Registry) : List (Request Nat) → List (Reply Nat)
  | [] => []
  | request :: rest => (r.serve request).2 :: (r.serve request).1.replies rest

section Lemmas

variable (r : Registry) {id scope : Nat}

@[simp] theorem alive_push_self : (r.push scope).alive r.count = true :=
  Function.update_self ..

theorem alive_push_of_ne (h : id ≠ r.count) : (r.push scope).alive id = r.alive id :=
  Function.update_of_ne h ..

theorem parent_push_self (h : scope < r.count) : (r.push scope).parent r.count = some ⟨scope, h⟩ := by
  show Function.update r.parent r.count _ r.count = _
  rw [Function.update_self, dif_pos h]

theorem parent_push_of_ne (h : id ≠ r.count) : (r.push scope).parent id = r.parent id :=
  Function.update_of_ne h ..

@[simp] theorem bindings_push_self : (r.push scope).bindings r.count = ∅ :=
  Function.update_self ..

theorem bindings_push_of_ne (h : id ≠ r.count) : (r.push scope).bindings id = r.bindings id :=
  Function.update_of_ne h ..

@[simp] theorem bindings_bind_self (name : String) (value : Value) :
    (r.bind scope name value).bindings scope = (r.bindings scope).insert name value :=
  Function.update_self ..

theorem bindings_bind_of_ne (h : id ≠ scope) (name : String) (value : Value) :
    (r.bind scope name value).bindings id = r.bindings id :=
  Function.update_of_ne h ..

end Lemmas

theorem holder?_of_ended {r : Registry} {scope : Nat} (h : r.alive scope = false) (name : String) :
    r.holder? scope name = none := by
  rw [holder?, outward, h]
  rfl

theorem holder?_of_alive {r : Registry} {scope : Nat} (h : r.alive scope = true) (name : String) :
    r.holder? scope name =
      if name ∈ r.bindings scope then some scope
      else (r.parent scope).bind fun outer => r.holder? outer name := by
  rw [holder?, outward, if_pos h]
  cases r.parent scope with
  | none =>
      by_cases hbound : name ∈ r.bindings scope <;> simp [hbound]
  | some outer =>
      by_cases hbound : name ∈ r.bindings scope <;> simp [hbound, holder?]

end Registry

end Blockscript
