import Blockscript.Fault
import Blockscript.Scope.Bindings

/-!
# Scopes and the store that holds them

Scopes are kept on a stack, the latest first. A handle names a scope by its position on the stack and by a generation that is never given out twice, so a handle of a scope that has ended names no later scope in the same position. Each scope but the global one has the handle of the scope around it, and a name is looked for along these links, which lead down the stack.
-/

namespace Blockscript

/-- Names a scope, whether it still exists or not. -/
structure Handle where
  index : Nat
  generation : Nat
deriving DecidableEq, Inhabited

namespace Handle

/-- The scope that every store has. -/
def global : Handle := ⟨0, 0⟩

end Handle

structure Scope where
  handle : Handle
  /-- The scope around this one, none for the global scope. -/
  enclosing : Option Handle
  bindings : Bindings
deriving DecidableEq, Inhabited

namespace Scope

/-- The scope that `handle` names among the given ones. -/
def find? (handle : Handle) (scopes : List Scope) : Option Scope :=
  scopes.find? (·.handle = handle)

/-- The value of a name in the first scope that binds it, from `handle` outwards. -/
def get? (name : String) : Handle → List Scope → Option Value
  | _, [] => none
  | handle, s :: older =>
    if s.handle = handle then
      match s.bindings.get? name, s.enclosing with
      | some value, _ => some value
      | none, some outer => get? name outer older
      | none, none => none
    else get? name handle older

/-- Binds a name in the scope of `handle`; none if there is no such scope. -/
def define? (name : String) (value : Value) (handle : Handle) : List Scope → Option (List Scope)
  | [] => none
  | s :: older =>
    if s.handle = handle then some ({ s with bindings := s.bindings.insert name value } :: older)
    else (define? name value handle older).map (s :: ·)

/-- Changes a name in the first scope that binds it, from `handle` outwards; none if no scope does. -/
def assign? (name : String) (value : Value) : Handle → List Scope → Option (List Scope)
  | _, [] => none
  | handle, s :: older =>
    if s.handle = handle then
      match s.bindings.contains name, s.enclosing with
      | true, _ => some ({ s with bindings := s.bindings.insert name value } :: older)
      | false, some outer => (assign? name value outer older).map (s :: ·)
      | false, none => none
    else (assign? name value handle older).map (s :: ·)

/-- The scopes below the one that `handle` names. -/
def below (handle : Handle) : List Scope → List Scope
  | [] => []
  | s :: older => if s.handle = handle then older else below handle older

end Scope

/-- The existing scopes, the latest first, and the generation of the next one. -/
structure Store where
  scopes : List Scope
  nextGeneration : Nat
deriving DecidableEq, Inhabited

namespace Store

/-- A store with an empty global scope only. -/
def fresh : Store := ⟨[⟨.global, none, .empty⟩], 1⟩

def find? (st : Store) (handle : Handle) : Option Scope :=
  Scope.find? handle st.scopes

/-- Whether the scope of a handle still exists. -/
def live (st : Store) (handle : Handle) : Bool :=
  (st.find? handle).isSome

/-- The handle that the next scope will have. -/
def nextHandle (st : Store) : Handle :=
  ⟨st.scopes.length, st.nextGeneration⟩

/-- Opens an empty scope inside the one of `enclosing`. It is named by `nextHandle`. -/
def push (st : Store) (enclosing : Handle) : Store :=
  ⟨⟨st.nextHandle, some enclosing, .empty⟩ :: st.scopes, st.nextGeneration + 1⟩

/-- Whether `pop` ends a scope: the global one and one that has ended stay as they are. -/
def canPop (st : Store) (handle : Handle) : Bool :=
  0 < handle.index && st.live handle

/-- Ends a scope and every one opened after it. -/
def pop (st : Store) (handle : Handle) : Store :=
  if st.canPop handle then { st with scopes := Scope.below handle st.scopes } else st

/-- The link of a scope to the one around it. -/
def enclosing (st : Store) (handle : Handle) : Option Handle :=
  (st.find? handle).bind (·.enclosing)

/-- The value of a name as seen from a scope. -/
def get? (st : Store) (handle : Handle) (name : String) : Option Value :=
  Scope.get? name handle st.scopes

/-- Binds a name in the scope of `handle` itself. -/
def define (st : Store) (handle : Handle) (name : String) (value : Value) : Except Fault Store :=
  match Scope.define? name value handle st.scopes with
  | some scopes => .ok { st with scopes }
  | none => .error .releasedScope

/-- Changes the innermost binding of a name that is seen from a scope. -/
def assign (st : Store) (handle : Handle) (name : Token) (value : Value) : Except Fault Store :=
  if st.live handle then
    match Scope.assign? name.lexeme value handle st.scopes with
    | some scopes => .ok { st with scopes }
    | none => .error (.undefinedVariable name.place name.lexeme)
  else .error .releasedScope

end Store

end Blockscript
