import Blockscript.Number.Units

/-!
# The text of a number

A whole number below `10 ^ 21` is written out exactly. Any other number is written with the fewest digits that read back as the same number: positionally below `10 ^ 21`, with an exponent from there on. Of two such texts of one length the nearer is taken, and the greater if both are equally near.
-/

namespace Blockscript.Number

/-- The values that round to one pattern, in halves of a unit around `mid`. -/
structure Basin where
  low : Nat
  mid : Nat
  high : Nat
  closed : Bool

/-- The ends lie half way to the neighbours and belong to an even pattern. -/
def basin (pattern : Nat) : Basin where
  low := units (pattern - 1) + units pattern
  mid := 2 * units pattern
  high := units pattern + units (pattern + 1)
  closed := pattern % 2 == 0

namespace Basin

/-- Whether the point `num / den`, in halves of a unit, is among the values. -/
def holds (b : Basin) (num den : Nat) : Bool :=
  if b.closed then b.low * den ≤ num && num ≤ b.high * den
  else b.low * den < num && num < b.high * den

/-- The multiple of `num / den` among the values that is nearest to the middle, as its factor. -/
def factor? (b : Basin) (num den : Nat) : Option Nat :=
  let below := b.mid * den / num
  match b.holds (below * num) den, b.holds ((below + 1) * num) den with
  | true, true =>
    if b.mid * den - below * num < (below + 1) * num - b.mid * den then some below else some (below + 1)
  | true, false => some below
  | false, true => some (below + 1)
  | false, false => none

/-- The fewest decimal places that reach the values, from `places` on, and the digits; `left` bounds the search. -/
def fewestPlaces (b : Basin) (places : Nat) : (left : Nat) → Nat × Nat
  | 0 => (b.mid * Nat.pow 10 places / (2 * unitsPerOne), places)
  | left + 1 =>
    match b.factor? (2 * unitsPerOne) (Nat.pow 10 places) with
    | some digits => (digits, places)
    | none => b.fewestPlaces (places + 1) left

/-- The greatest power of ten, up to the given one, with a multiple among the values, and the factor. -/
def greatestPower (b : Basin) : Nat → Nat × Nat
  | 0 => (b.mid / (2 * unitsPerOne), 0)
  | power + 1 =>
    match b.factor? (2 * unitsPerOne * Nat.pow 10 (power + 1)) 1 with
    | some digits => (digits, power + 1)
    | none => b.greatestPower power

end Basin

/-- The last `width` decimal digits, with zeros in front. -/
def lastDigits (n : Nat) : (width : Nat) → List Char
  | 0 => []
  | width + 1 => lastDigits (n / 10) width ++ [Nat.digitChar (n % 10)]

/-- `digits / 10 ^ places` with a decimal point. -/
def positional (digits places : Nat) : String :=
  toString (digits / Nat.pow 10 places) ++ "." ++ String.ofList (lastDigits digits places)

/-- `digits * 10 ^ power` with one digit before the point and an exponent. -/
def scientific (digits power : Nat) : String :=
  match (toString digits).toList with
  | [] => ""
  | first :: [] => first.toString ++ "e" ++ toString power
  | first :: more =>
    first.toString ++ "." ++ String.ofList more ++ "e" ++ toString (power + more.length)

/-- From this on numbers are written with an exponent. -/
def exponentBound : Nat := Nat.pow 10 21

/-- No number has a digit further after the point than this. -/
def maxPlaces : Nat := 1074

/-- No finite number reaches ten times this power of ten. -/
def maxPower : Nat := 308

/-- The text of the number of a finite pattern. -/
def magnitudeText (pattern : Nat) : String :=
  let count := units pattern
  if exponentBound * unitsPerOne ≤ count then
    let (digits, power) := (basin pattern).greatestPower maxPower
    scientific digits power
  else if count % unitsPerOne = 0 then toString (count / unitsPerOne)
  else
    let (digits, places) := (basin pattern).fewestPlaces 1 maxPlaces
    positional digits places

/-- The bit of the sign, above the pattern. -/
def signBit : Nat := Nat.pow 2 63

/-- The text of a number, with a sign in front of every negative one, zero included. -/
def text (x : Float) : String :=
  let bits := x.toBits.toNat
  let pattern := bits % signBit
  let sign := if bits < signBit then "" else "-"
  if infinity < pattern then "NaN"
  else if pattern = infinity then sign ++ "inf"
  else sign ++ magnitudeText pattern

end Blockscript.Number
