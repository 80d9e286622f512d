/-!
# Places in a source text

A place is a line number together with a range of character offsets. Lines count from one, offsets from zero, and a range holds its first offset and not its last.
-/

namespace Blockscript

/-- A range of character offsets, the last one excluded. -/
structure Span where
  start : Nat
  stop : Nat
deriving DecidableEq, Inhabited

namespace Span

/-- The range of the one character at `offset`. -/
def single (offset : Nat) : Span := ⟨offset, offset + 1⟩

/-- From the start of the first range to the end of the second. -/
def through (first last : Span) : Span := ⟨first.start, last.stop⟩

@[simp] theorem start_through (first last : Span) : (first.through last).start = first.start := rfl

@[simp] theorem stop_through (first last : Span) : (first.through last).stop = last.stop := rfl

end Span

/-- Where something stands: its line and its range. -/
structure Place where
  line : Nat
  span : Span
deriving DecidableEq, Inhabited

end Blockscript
