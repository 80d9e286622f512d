import Blockscript.Proofs.Number.Rounding
import Blockscript.Proofs.Scan.Lexicon

/-!
# Digits that read back

The digits that are found for a number stand in its basin, so the decimal that they denote rounds to it. They are found in any case, since with `maxPlaces` places after the point every number is a decimal itself. Written as a whole number or with a point between the digits, they are a number of the lexicon, and its value is the number of the pattern.
-/

namespace Blockscript.Number

open Scan

/-! ### Decimals -/

theorem Basin.holds_of_factor {b : Basin} {num den factor : Nat} (h : b.factor? num den = some factor) :
    b.holds (factor * num) den = true := by
  let below := b.mid * den / num
  rw [factor?] at h
  cases hbelow : b.holds (below * num) den <;> cases habove : b.holds ((below + 1) * num) den <;>
    simp only [below] at hbelow habove <;> simp only [hbelow, habove] at h
  · cases h
  · cases h
    exact habove
  · cases h
    exact hbelow
  · split at h <;> cases h
    · exact hbelow
    · exact habove

theorem two_pow_dvd_ten_pow {n places : Nat} (h : n ≤ places) : Nat.pow 2 n ∣ Nat.pow 10 places :=
  Nat.dvd_trans (Nat.pow_dvd_pow 2 h) ⟨5 ^ places, Nat.mul_pow 2 5 places⟩

/-- No number needs more places. -/
theorem unitsPerOne_dvd {places : Nat} (h : maxPlaces ≤ places) : unitsPerOne ∣ Nat.pow 10 places := by
  unfold unitsPerOne
  apply two_pow_dvd_ten_pow
  exact h

/-- The digits that are found stand for a value of the basin. -/
theorem fewestPlaces_holds (pattern : Nat) {places left : Nat} (h : maxPlaces ≤ places + left) :
    let found := (basin pattern).fewestPlaces places left
    (basin pattern).holds (found.1 * (2 * unitsPerOne)) (Nat.pow 10 found.2) = true := by
  induction left generalizing places with
  | zero =>
      have hexact : 2 * unitsPerOne ∣ (basin pattern).mid * Nat.pow 10 places :=
        Nat.mul_dvd_mul (Nat.dvd_mul_right 2 _) (unitsPerOne_dvd h)
      simp only [Basin.fewestPlaces, Nat.div_mul_cancel hexact]
      exact Basin.holds_mid (Nat.pow_pos (by decide))
  | succ left ih =>
      rw [Basin.fewestPlaces]
      split
      · next hfactor => exact Basin.holds_of_factor hfactor
      · exact ih (by omega)

/-- What rounds to a finite pattern is read as its number. -/
theorem ofDecimal_of_holds {pattern digits places : Nat} (hfinite : pattern < infinity)
    (h : (basin pattern).holds (digits * (2 * unitsPerOne)) (Nat.pow 10 places) = true) :
    ofDecimal digits places = .ofBits pattern.toUInt64 := by
  have hnearest : nearest (digits * unitsPerOne) (Nat.pow 10 places) = pattern := by
    apply nearest_of_holds (Nat.pow_pos (by decide))
    rwa [Nat.mul_left_comm]
  rw [ofDecimal, hnearest, Nat.min_eq_left hfinite.le]

/-! ### Texts of digits -/

theorem isDigit_of_mem_lastDigits (n width : Nat) : ∀ c ∈ lastDigits n width, c.isDigit = true := by
  induction width generalizing n with
  | zero => simp [lastDigits]
  | succ width ih =>
      intro c hc
      rw [lastDigits, List.mem_append, List.mem_singleton] at hc
      rcases hc with hc | rfl
      · exact ih _ c hc
      · rw [Nat.isDigit_digitChar]
        exact decide_eq_true (Nat.mod_lt n (by decide))

@[simp] theorem length_lastDigits (n width : Nat) : (lastDigits n width).length = width := by
  induction width generalizing n with
  | zero => rfl
  | succ width ih => rw [lastDigits, List.length_append, ih, List.length_singleton]

theorem ofDigitChars_lastDigits (n width start : Nat) :
    Nat.ofDigitChars 10 (lastDigits n width) start = start * 10 ^ width + n % 10 ^ width := by
  induction width generalizing n with
  | zero => simp [lastDigits, Nat.mod_one]
  | succ width ih =>
      rw [lastDigits, Nat.ofDigitChars_append, ih,
        Nat.ofDigitChars_cons_digitChar_of_lt_ten (Nat.mod_lt n (by decide)), Nat.ofDigitChars_nil, Nat.pow_succ',
        Nat.mod_mul, Nat.mul_left_comm start]
      omega

/-- The digits in front of the point and those behind it are all the digits. -/
theorem ofDigitChars_positional (digits places : Nat) :
    Nat.ofDigitChars 10 (Nat.toDigits 10 (digits / 10 ^ places) ++ lastDigits digits places) 0 = digits := by
  rw [Nat.ofDigitChars_append, Nat.ofDigitChars_ten_toDigits, ofDigitChars_lastDigits, Nat.div_add_mod']

theorem spells_toString (n : Nat) :
    Spells (toString n).toList (.token .number (some (.number (ofDecimal n 0)))) := by
  have hspells := Spells.whole Nat.toDigits_ne_nil
    (fun c => Nat.isDigit_of_mem_toDigits (n := n) (by decide) (Nat.le_refl 10))
  rw [numberValue, List.append_nil, Nat.ofDigitChars_ten_toDigits] at hspells
  rwa [Nat.toString_eq_ofList_toDigits, String.toList_ofList]

theorem spells_positional (digits places : Nat) :
    Spells (positional digits places).toList (.token .number (some (.number (ofDecimal digits places)))) := by
  have hspells := Spells.fraction Nat.toDigits_ne_nil
    (fun c => Nat.isDigit_of_mem_toDigits (n := digits / 10 ^ places) (by decide) (Nat.le_refl 10))
    (isDigit_of_mem_lastDigits digits places)
  rw [numberValue, ofDigitChars_positional, length_lastDigits] at hspells
  simp only [positional, String.toList_append, List.append_assoc, Nat.toString_eq_ofList_toDigits,
    String.toList_ofList]
  exact hspells

/-- The text of a number below the bound is a number of the lexicon, and its value is that number. -/
theorem spells_magnitudeText {pattern : Nat} (hfinite : pattern < infinity)
    (hbound : units pattern < exponentBound * unitsPerOne) :
    Spells (magnitudeText pattern).toList (.token .number (some (.number (.ofBits pattern.toUInt64)))) := by
  simp only [magnitudeText]
  rw [if_neg (Nat.not_le_of_lt hbound)]
  split
  · next hwhole =>
    have hholds : (basin pattern).holds (units pattern / unitsPerOne * (2 * unitsPerOne)) (Nat.pow 10 0) = true := by
      have hexact := Nat.div_mul_cancel (Nat.dvd_of_mod_eq_zero hwhole)
      rw [Nat.mul_left_comm, hexact]
      exact Nat.mul_one (2 * units pattern) ▸ Basin.holds_mid Nat.one_pos
    rw [← ofDecimal_of_holds hfinite hholds]
    exact spells_toString _
  · rw [← ofDecimal_of_holds hfinite (fewestPlaces_holds pattern (Nat.le_add_left maxPlaces 1))]
    exact spells_positional _ _

end Blockscript.Number
