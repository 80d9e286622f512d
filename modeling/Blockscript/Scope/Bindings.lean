import Blockscript.Value

/-!
# Bindings

The names of one scope and their values, in the order in which they were first bound.
-/

namespace Blockscript

structure Bindings where
  entries : List (String × Value)
deriving DecidableEq, Inhabited

namespace Bindings

def empty : Bindings := ⟨[]⟩

/-- The value of the first entry of a name. -/
def entryValue? (name : String) : List (String × Value) → Option Value
  | [] => none
  | (key, value) :: rest => if name = key then some value else entryValue? name rest

def get? (b : Bindings) (name : String) : Option Value :=
  entryValue? name b.entries

def contains (b : Bindings) (name : String) : Bool :=
  (b.get? name).isSome

/-- Replaces the value of `name` where it stands, or puts the name at the end. -/
def insertEntry (name : String) (value : Value) : List (String × Value) → List (String × Value)
  | [] => [(name, value)]
  | (key, old) :: rest =>
    if name = key then (key, value) :: rest else (key, old) :: insertEntry name value rest

def insert (b : Bindings) (name : String) (value : Value) : Bindings :=
  ⟨insertEntry name value b.entries⟩

/-- The bound names. -/
def names (b : Bindings) : List String :=
  b.entries.map Prod.fst

@[simp] theorem get?_empty (name : String) : empty.get? name = none := rfl

theorem entryValue?_insertEntry (entries : List (String × Value)) (x y : String) (v : Value) :
    entryValue? y (insertEntry x v entries) = if y = x then some v else entryValue? y entries := by
  induction entries with
  | nil => rfl
  | cons entry rest ih =>
    obtain ⟨key, old⟩ := entry
    by_cases hx : x = key <;> by_cases hy : y = key <;> grind [insertEntry, entryValue?]

theorem get?_insert (b : Bindings) (x y : String) (v : Value) :
    (b.insert x v).get? y = if y = x then some v else b.get? y :=
  entryValue?_insertEntry b.entries x y v

theorem contains_insert (b : Bindings) (x y : String) (v : Value) :
    (b.insert x v).contains y = (y == x || b.contains y) := by
  by_cases h : y = x <;> simp [contains, get?_insert, h]

end Bindings

end Blockscript
