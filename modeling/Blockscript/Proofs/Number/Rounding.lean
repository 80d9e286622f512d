import Mathlib.Algebra.Group.Nat.Defs
import Mathlib.Order.Monotone.Basic
import Blockscript.Number.Text

/-!
# Rounding to a pattern

Each pattern has more units than the one before, so every count of units stands between two neighbours. The values that round to a pattern are those of its basin: half way to the neighbours on either side, with the ends if the pattern is even. The number of the pattern is one of them.
-/

namespace Blockscript.Number

/-! ### Units -/

theorem units_scaled {shift top : Nat} (hlow : shift = 0 ∨ binade ≤ top) (hhigh : top < 2 * binade) :
    (shift * binade + top) / binade - 1 = shift ∧ units (shift * binade + top) = top * 2 ^ shift := by
  have hshift : (shift * binade + top) / binade - 1 = shift := by
    have hpos : 0 < binade := Nat.two_pow_pos 52
    have hquotient : top / binade < 2 := Nat.div_lt_of_lt_mul (by rwa [Nat.mul_comm])
    rw [Nat.mul_comm, Nat.mul_add_div hpos]
    rcases hlow with rfl | hlow
    · omega
    · have := (Nat.one_le_div_iff hpos).2 hlow
      omega
  refine ⟨hshift, ?_⟩
  rw [units, hshift, Nat.add_sub_cancel_left]
  rfl

/-- A pattern as a shift and the digits that are shifted. -/
theorem exists_scaled (pattern : Nat) :
    ∃ shift top, pattern = shift * binade + top ∧ (shift = 0 ∨ binade ≤ top) ∧ top < 2 * binade := by
  have hpos : 0 < binade := Nat.two_pow_pos 52
  have hsplit := Nat.div_add_mod' pattern binade
  have hrest := Nat.mod_lt pattern hpos
  cases hexponent : pattern / binade with
  | zero =>
      rw [hexponent] at hsplit
      exact ⟨0, pattern, by omega, .inl rfl, by omega⟩
  | succ shift =>
      rw [hexponent, Nat.succ_mul] at hsplit
      exact ⟨shift, binade + pattern % binade, by omega, .inr (by omega), by omega⟩

theorem units_succ (pattern : Nat) : units (pattern + 1) = units pattern + 2 ^ (pattern / binade - 1) := by
  obtain ⟨shift, top, rfl, hlow, hhigh⟩ := exists_scaled pattern
  obtain ⟨hshift, hunits⟩ := units_scaled hlow hhigh
  rw [hshift, hunits, ← Nat.succ_mul, Nat.add_assoc]
  rcases Nat.lt_or_eq_of_le (Nat.succ_le_of_lt hhigh) with hroom | hfull
  · exact (units_scaled (hlow.imp_right fun h => Nat.le_succ_of_le h) hroom).2
  · have hnext : shift * binade + (top + 1) = (shift + 1) * binade + binade := by
      rw [Nat.succ_mul]
      omega
    have hpos : 0 < binade := Nat.two_pow_pos 52
    rw [hnext, (units_scaled (.inr (Nat.le_refl _)) (by omega)).2, hfull, Nat.pow_succ]
    ac_rfl

theorem units_strictMono : StrictMono units :=
  strictMono_nat_of_lt_succ fun pattern => by
    rw [units_succ]
    exact Nat.lt_add_of_pos_right (Nat.two_pow_pos _)

/-- The count stands between the units of the pattern and those of the next. -/
theorem patternBelow_spec (count : Nat) :
    units (patternBelow count) ≤ count ∧ count < units (patternBelow count + 1) := by
  let shift := count.log2 - 52
  let top := count / 2 ^ shift
  have hpos : 0 < 2 ^ shift := Nat.two_pow_pos shift
  have hhigh : top < 2 * binade := by
    apply Nat.div_lt_of_lt_mul
    calc count < 2 ^ (count.log2 + 1) := Nat.lt_log2_self
      _ ≤ 2 ^ (shift + 53) := Nat.pow_le_pow_right (by omega) (by omega)
      _ = 2 ^ shift * (2 * binade) := Nat.pow_add 2 shift 53
  have hlow : shift = 0 ∨ binade ≤ top := by
    rcases Nat.eq_zero_or_pos shift with hzero | hshift
    · exact .inl hzero
    · right
      have hne : count ≠ 0 := by
        rintro rfl
        exact absurd hshift (by decide)
      rw [Nat.le_div_iff_mul_le hpos]
      calc binade * 2 ^ shift = 2 ^ (52 + shift) := (Nat.pow_add 2 52 shift).symm
        _ = 2 ^ count.log2 := by rw [show 52 + shift = count.log2 by omega]
        _ ≤ count := Nat.log2_self_le hne
  have hbelow : patternBelow count = shift * binade + top := rfl
  obtain ⟨hexponent, hunits⟩ := units_scaled hlow hhigh
  rw [units_succ, hbelow, hexponent, hunits]
  exact ⟨Nat.div_mul_le_self count _, Nat.lt_div_mul_add hpos⟩

/-! ### Basins -/

namespace Basin

/-- The values lie between the ends, which are among them only if the basin is closed. -/
theorem holds_iff {b : Basin} {num den : Nat} : b.holds num den = true ↔
    (b.low * den ≤ num ∧ num ≤ b.high * den) ∧ (num = b.low * den ∨ num = b.high * den → b.closed = true) := by
  rw [holds]
  cases b.closed with
  | true => simp
  | false =>
      simp only [Bool.false_eq_true, ↓reduceIte, Bool.and_eq_true, decide_eq_true_eq, imp_false, not_or]
      omega

theorem closed_basin_iff {pattern : Nat} : (basin pattern).closed = true ↔ pattern % 2 = 0 :=
  beq_iff_eq

/-- A number is among the values that round to it. -/
theorem holds_mid {pattern den : Nat} (hden : 0 < den) :
    (basin pattern).holds ((basin pattern).mid * den) den = true := by
  have hprevious : units (pattern - 1) ≤ units pattern := units_strictMono.monotone (Nat.sub_le pattern 1)
  have hnext : units pattern < units (pattern + 1) := units_strictMono (Nat.lt_succ_self pattern)
  have hlow : (basin pattern).low ≤ (basin pattern).mid := by
    simp only [basin]
    omega
  have hhigh : (basin pattern).mid < (basin pattern).high := by
    simp only [basin]
    omega
  refine holds_iff.2 ⟨⟨Nat.mul_le_mul_right den hlow, Nat.mul_le_mul_right den hhigh.le⟩, fun hend => ?_⟩
  rcases hend with hend | hend
  · have hsame : units (pattern - 1) = units pattern := by
      have := Nat.eq_of_mul_eq_mul_right hden hend
      simp only [basin] at this
      omega
    have hzero : pattern = 0 := by
      have := units_strictMono.injective hsame
      omega
    rw [closed_basin_iff, hzero]
  · exact absurd (Nat.eq_of_mul_eq_mul_right hden hend) hhigh.ne

end Basin

/-- The values of a basin round to its pattern. -/
theorem nearest_of_holds {pattern num den : Nat} (hden : 0 < den) (h : (basin pattern).holds (2 * num) den = true) :
    nearest num den = pattern := by
  obtain ⟨⟨hlow, hhigh⟩, hend⟩ := Basin.holds_iff.1 h
  rw [Basin.closed_basin_iff] at hend
  simp only [basin] at hlow hhigh hend
  obtain ⟨hbelow, habove⟩ := patternBelow_spec (num / den)
  rw [Nat.le_div_iff_mul_le hden] at hbelow
  rw [Nat.div_lt_iff_lt_mul hden] at habove
  have hle : patternBelow (num / den) ≤ pattern := by
    by_contra hgt
    have hpattern : units pattern < units (pattern + 1) := units_strictMono (Nat.lt_succ_self pattern)
    have hnext : units (pattern + 1) ≤ units (patternBelow (num / den)) := units_strictMono.monotone (by omega)
    have := Nat.mul_le_mul_right den hnext
    have := Nat.mul_lt_mul_of_pos_right hpattern hden
    rw [Nat.add_mul] at hhigh
    omega
  have hge : pattern ≤ patternBelow (num / den) + 1 := by
    by_contra hlt
    have hpattern : units (pattern - 1) < units pattern := units_strictMono (by omega)
    have hprevious : units (patternBelow (num / den) + 1) ≤ units (pattern - 1) :=
      units_strictMono.monotone (by omega)
    have := Nat.mul_le_mul_right den hprevious
    have := Nat.mul_lt_mul_of_pos_right hpattern hden
    rw [Nat.add_mul] at hlow
    omega
  simp only [nearest]
  generalize patternBelow (num / den) = below at hle hge ⊢
  rcases Nat.lt_or_eq_of_le hge with hsame | rfl
  · obtain rfl : below = pattern := by omega
    split_ifs <;> omega
  · rw [Nat.add_sub_cancel] at hlow hend
    split_ifs <;> omega

end Blockscript.Number
