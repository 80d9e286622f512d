import Mathlib.Data.Finmap
import Blockscript.Scope.Bindings

/-!
# Bindings as finite maps

The bindings of a scope, read as a finite map from names to values. Maps with the same entries are equal, in whichever order their names were first bound.
-/

namespace Blockscript

/-- The variables of one block. -/
abbrev Frame := Finmap fun _ : String => Value

namespace Bindings

/-- The same names are bound to the same values. -/
def Agrees (b : Bindings) (frame : Frame) : Prop :=
  ∀ name, b.get? name = frame.lookup name

theorem agrees_empty : empty.Agrees ∅ := by
  intro name
  rw [get?_empty, Finmap.lookup_empty]

namespace Agrees

variable {b : Bindings} {frame : Frame}

theorem insert (h : b.Agrees frame) (name : String) (value : Value) :
    (b.insert name value).Agrees (frame.insert name value) := by
  intro other
  rw [get?_insert]
  by_cases hname : other = name
  · rw [if_pos hname, hname, Finmap.lookup_insert]
  · rw [if_neg hname, h other, Finmap.lookup_insert_of_ne frame hname]

theorem contains_eq (h : b.Agrees frame) (name : String) : b.contains name = decide (name ∈ frame) := by
  rw [contains, h name, Bool.eq_iff_iff, Finmap.lookup_isSome, decide_eq_true_iff]

end Agrees

end Bindings

end Blockscript
