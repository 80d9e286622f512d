/-!
# Numbers as counts of the least positive one

The bits of a non-negative number below its sign, read as a natural number, are its pattern. Patterns are ordered as their numbers are, and every finite number is a whole count of the least positive one, `2 ^ (-1074)`. So each question about a number is a question about two natural numbers, its pattern and its units. The pattern of infinity goes on as if one more number followed the largest finite one, which is what rounding needs.
-/

namespace Blockscript.Number

/-- The least positive number is one over this. -/
def unitsPerOne : Nat := Nat.pow 2 1074

/-- How many patterns share one exponent. -/
def binade : Nat := Nat.pow 2 52

/-- The pattern of infinity. Greater patterns are not numbers. -/
def infinity : Nat := 2047 * binade

/-- How many times the least positive number fits into the number of a pattern. -/
def units (pattern : Nat) : Nat :=
  let shift := pattern / binade - 1
  (pattern - shift * binade) * Nat.pow 2 shift

/-- The greatest pattern with at most the given units. -/
def patternBelow (count : Nat) : Nat :=
  let shift := count.log2 - 52
  shift * binade + count / Nat.pow 2 shift

/-- The pattern nearest to `num / den` units. The even one of two equally near patterns is taken. -/
def nearest (num den : Nat) : Nat :=
  let below := patternBelow (num / den)
  let middle := units below + units (below + 1)
  if 2 * num < middle * den then below
  else if middle * den < 2 * num then below + 1
  else below + below % 2

/-- The number of `digits / 10 ^ places`, rounded to the nearest; what is too large is infinite. -/
def ofDecimal (digits places : Nat) : Float :=
  .ofBits (min (nearest (digits * unitsPerOne) (Nat.pow 10 places)) infinity).toUInt64

end Blockscript.Number
