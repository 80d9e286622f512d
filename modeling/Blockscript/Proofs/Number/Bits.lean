import Mathlib
import Blockscript.Proofs.Number.Rounding

/-!
# Bits and patterns

The bits of a finite number are a sign and a pattern, and the arithmetic of the model works on what they unpack to: the digits that the pattern has, and the power of two that they count. Both are those of its units. So negation changes the sign and keeps the pattern, a number below its sign bit is that of its pattern, and what is less than `10 ^ 21` in size has fewer units.

The lemmas on how a float unpacks reach this module only through Mathlib as a whole.
-/

open Float.Model

namespace Blockscript.Number

/-- The bits below the sign. -/
def pattern (x : Float) : Nat := x.toBits.toNat % signBit

variable {b : BitVec Format.binary64.numBits} {x : Float}

/-! ### Fields of the bits -/

theorem toNat_unpackExponent (b : BitVec Format.binary64.numBits) :
    (UnpackedFloat.unpackExponent b).toNat = b.toNat % signBit / binade := by
  rw [UnpackedFloat.unpackExponent_def, BitVec.extractLsb'_toNat, Nat.shiftRight_eq_div_pow]
  change b.toNat / 4503599627370496 % 2048 = b.toNat % 9223372036854775808 / 4503599627370496
  omega

theorem toNat_unpackMantissa (b : BitVec Format.binary64.numBits) :
    (UnpackedFloat.unpackMantissa b).toNat = b.toNat % signBit % binade := by
  rw [UnpackedFloat.unpackMantissa_def, BitVec.extractLsb'_toNat, Nat.shiftRight_zero]
  change b.toNat % 4503599627370496 = b.toNat % 9223372036854775808 % 4503599627370496
  omega

theorem toNat_unpackSign (b : BitVec Format.binary64.numBits) :
    (UnpackedFloat.unpackSign b).toNat = b.toNat / signBit := by
  rw [UnpackedFloat.unpackSign_def, BitVec.extractLsb'_toNat, Nat.shiftRight_eq_div_pow]
  have hlt : b.toNat < 18446744073709551616 := b.isLt
  change b.toNat / 9223372036854775808 % 2 = b.toNat / 9223372036854775808
  omega

theorem unpackExponent_eq_iff {e : BitVec Format.binary64.exponentBits} :
    UnpackedFloat.unpackExponent b = e ↔ b.toNat % signBit / binade = e.toNat := by
  rw [← BitVec.toNat_inj, toNat_unpackExponent]

theorem sign_of_lt (h : b.toNat < signBit) :
    UnpackedFloat.Sign.ofBitVec (UnpackedFloat.unpackSign b) = .positive := by
  have hzero : UnpackedFloat.unpackSign b = 0#1 := by
    apply BitVec.eq_of_toNat_eq
    rw [toNat_unpackSign, Nat.div_eq_of_lt h]
    rfl
  rw [hzero]
  rfl

theorem sign_of_le (h : signBit ≤ b.toNat) :
    UnpackedFloat.Sign.ofBitVec (UnpackedFloat.unpackSign b) = .negative := by
  have hone : UnpackedFloat.unpackSign b = 1#1 := by
    have hlt : b.toNat < 2 * signBit := b.isLt
    apply BitVec.eq_of_toNat_eq
    rw [toNat_unpackSign, Nat.div_eq_of_lt_le (by omega) hlt]
    rfl
  rw [hone]
  rfl

/-- Numbers do not have the greatest exponent. -/
theorem unpackExponent_ne (hfinite : b.toNat % signBit < infinity) :
    UnpackedFloat.unpackExponent b ≠ -1#_ := by
  intro h
  have hones : b.toNat % signBit / binade = 2047 := unpackExponent_eq_iff.1 h
  exact absurd hones (Nat.div_lt_of_lt_mul (Nat.mul_comm .. ▸ hfinite)).ne

/-! ### Unpacked numbers -/

/-- The number of a sign and a pattern: the digits and the power of two that they count. -/
def unpacked (sign : UnpackedFloat.Sign) (pattern : Nat) : UnpackedFloat :=
  if h : pattern = 0 then .zero sign
  else .finite sign (pattern - (pattern / binade - 1) * binade) ((pattern / binade - 1 : Nat) - 1074) (by
    obtain ⟨shift, top, rfl, hlow, hhigh⟩ := exists_scaled pattern
    rw [(units_scaled hlow hhigh).1, Nat.add_sub_cancel_left]
    rcases hlow with rfl | hlow
    · omega
    · exact Nat.lt_of_lt_of_le (Nat.two_pow_pos 52) hlow)

theorem neg_unpacked (sign : UnpackedFloat.Sign) (pattern : Nat) :
    (unpacked sign pattern).neg = unpacked (-sign) pattern := by
  rw [unpacked, unpacked]
  split <;> rfl

theorem abs_unpacked (sign : UnpackedFloat.Sign) (pattern : Nat) :
    (unpacked sign pattern).abs = unpacked .positive pattern := by
  rw [unpacked, unpacked]
  split <;> rfl

/-- Greater numbers have greater patterns. -/
theorem lt_of_unpacked_lt {p q : Nat} (h : (unpacked .positive p).lt (unpacked .positive q) = true) : p < q := by
  rw [unpacked, unpacked] at h
  split at h <;> split at h
  · cases h
  · omega
  · cases h
  · have hless : (compare (((p / binade - 1 : Nat) : Int) - 1074) (((q / binade - 1 : Nat) : Int) - 1074)).then
        (compare (p - (p / binade - 1) * binade) (q - (q / binade - 1) * binade)) = .lt := by
      simpa [UnpackedFloat.lt, UnpackedFloat.compare] using h
    rw [Ordering.then_eq_lt, compare_lt_iff_lt, compare_eq_iff_eq, compare_lt_iff_lt] at hless
    obtain ⟨shift, top, rfl, hlow, hhigh⟩ := exists_scaled p
    obtain ⟨shift', top', rfl, hlow', hhigh'⟩ := exists_scaled q
    rw [(units_scaled hlow hhigh).1, (units_scaled hlow' hhigh').1, Nat.add_sub_cancel_left,
      Nat.add_sub_cancel_left] at hless
    rcases hless with hless | ⟨hsame, hless⟩
    · have hmul : (shift + 1) * binade ≤ shift' * binade := Nat.mul_le_mul_right binade (by omega)
      rw [Nat.succ_mul] at hmul
      omega
    · obtain rfl : shift = shift' := by omega
      omega

theorem toNat_append_one (m : BitVec 52) : (1#1 ++ m).toNat = binade + m.toNat := by
  rw [BitVec.toNat_append, ← Nat.shiftLeft_add_eq_or_of_lt m.isLt, Nat.shiftLeft_eq]
  rfl

/-- Bits unpack to the number of their sign and pattern. -/
theorem unpack_eq (hfinite : b.toNat % signBit < infinity) :
    UnpackedFloat.unpack .binary64 b = unpacked (.ofBitVec (UnpackedFloat.unpackSign b)) (b.toNat % signBit) := by
  have hexponent := toNat_unpackExponent b
  have hmantissa := toNat_unpackMantissa b
  have hpos : 0 < binade := Nat.two_pow_pos 52
  have hsplit := Nat.div_add_mod' (b.toNat % signBit) binade
  rw [UnpackedFloat.unpack, if_neg (unpackExponent_ne hfinite)]
  generalize b.toNat % signBit = pattern at *
  split
  · next hleast =>
    rw [hleast] at hexponent
    have hexponent : 0 = pattern / binade := hexponent
    rw [← hexponent] at hsplit
    split
    · next hzero =>
      rw [hzero] at hmantissa
      have hmantissa : 0 = pattern % binade := hmantissa
      rw [unpacked, dif_pos (by omega)]
    · next hsome =>
      have hsome : (UnpackedFloat.unpackMantissa b).toNat ≠ 0 := fun h => hsome (BitVec.eq_of_toNat_eq h)
      rw [unpacked, dif_neg (by omega)]
      simp only [UnpackedFloat.finite.injEq, true_and, ← hexponent]
      refine ⟨by omega, ?_⟩
      rw [hleast]
      rfl
  · next hgreater =>
    have hgreater : (UnpackedFloat.unpackExponent b).toNat ≠ 0 := fun h => hgreater (BitVec.eq_of_toNat_eq h)
    have hshift : pattern / binade * binade = (pattern / binade - 1) * binade + binade := by
      rw [← Nat.succ_mul, Nat.succ_eq_add_one, Nat.sub_add_cancel (by omega)]
    rw [unpacked, dif_neg (by omega)]
    simp only [UnpackedFloat.finite.injEq, true_and]
    refine ⟨?_, ?_⟩
    · rw [toNat_append_one]
      omega
    · rw [hexponent]
      change (_ : Int) - (1023 + 52) = _
      omega

theorem unpack_of_infinity_le (h : infinity ≤ b.toNat % signBit) :
    UnpackedFloat.unpack .binary64 b = .notANumber ∨ ∃ sign, UnpackedFloat.unpack .binary64 b = .infinity sign := by
  have hones : UnpackedFloat.unpackExponent b = -1#_ := by
    have hlt : b.toNat % signBit < 2048 * binade := Nat.mod_lt _ (Nat.two_pow_pos 63)
    exact unpackExponent_eq_iff.2 (Nat.div_eq_of_lt_le h hlt)
  rw [UnpackedFloat.unpack, if_pos hones]
  split
  · exact .inr ⟨_, rfl⟩
  · exact .inl rfl

/-! ### Numbers of patterns -/

theorem pack_unpack_of_finite (hfinite : b.toNat % signBit < infinity) :
    UnpackedFloat.pack .binary64 (UnpackedFloat.unpack .binary64 b) = b := by
  have hnumber : UnpackedFloat.isNaNBits b = false := decide_eq_false fun h => unpackExponent_ne hfinite h.1
  rw [UnpackedFloat.pack_unpack, hnumber, if_neg Bool.false_ne_true]

theorem unpack_ofBits {p : Nat} (hfinite : p < infinity) :
    (Float.ofBits p.toUInt64).toModel.unpack = unpacked .positive p := by
  have hsign : p < signBit := hfinite.trans (by decide)
  have hbits : p.toUInt64.toBitVec.toNat = p := Nat.mod_eq_of_lt (hsign.trans (by decide))
  have hpattern : p.toUInt64.toBitVec.toNat % signBit = p := by
    rw [hbits, Nat.mod_eq_of_lt hsign]
  have hpack : (Float.ofBits p.toUInt64).toBits.toBitVec = p.toUInt64.toBitVec :=
    pack_unpack_of_finite (hpattern.trans_lt hfinite)
  have hunpack := unpack_eq (hpattern.trans_lt hfinite)
  rw [sign_of_lt (hbits.trans_lt hsign), hpattern, ← hpack] at hunpack
  exact hunpack

theorem eq_of_pack_eq {y : Float} (h : UnpackedFloat.pack .binary64 x.toModel.unpack = y.toBits.toBitVec) : x = y :=
  Float.toBits_inj.1 (UInt64.eq_of_toBitVec_eq ((UnpackedFloat.pack_unpack_of_valid x.toModel.valid).symm.trans h))

/-- Without a sign a number is that of its pattern. -/
theorem ofBits_pattern (h : x.toBits.toNat < signBit) : Float.ofBits (pattern x).toUInt64 = x := by
  rw [pattern, Nat.mod_eq_of_lt h, Nat.toUInt64, UInt64.ofNat_toNat, Float.ofBits_toBits]

/-- With a sign a number is the negative of that of its pattern, zero included. -/
theorem neg_ofBits_pattern (hsign : signBit ≤ x.toBits.toNat) (hfinite : pattern x < infinity) :
    -Float.ofBits (pattern x).toUInt64 = x := by
  have hunpack : x.toModel.unpack = (Float.ofBits (pattern x).toUInt64).toModel.unpack.neg := by
    rw [unpack_ofBits hfinite, neg_unpacked]
    exact (unpack_eq hfinite).trans (congrArg (unpacked · _) (sign_of_le hsign))
  symm
  apply eq_of_pack_eq
  rw [hunpack]
  rfl

theorem abs_eq_ofBits_pattern (hfinite : pattern x < infinity) : x.abs = Float.ofBits (pattern x).toUInt64 := by
  have hunpack : x.toModel.unpack.abs = (Float.ofBits (pattern x).toUInt64).toModel.unpack := by
    rw [unpack_ofBits hfinite, ← abs_unpacked]
    exact congrArg UnpackedFloat.abs (unpack_eq hfinite)
  symm
  apply eq_of_pack_eq
  rw [← hunpack]
  rfl

/-! ### Numbers below the bound -/

theorem pattern_lt_of_abs_lt (h : x.abs < 1e21) : pattern x < infinity := by
  have hlt : (UnpackedFloat.unpack .binary64 (UnpackedFloat.pack .binary64 x.toModel.unpack.abs)).lt
      (1e21 : Float).toModel.unpack = true := of_decide_eq_true h
  by_contra hinfinite
  have habs : x.toModel.unpack.abs = .notANumber ∨ x.toModel.unpack.abs = .infinity .positive := by
    obtain hunpack | ⟨sign, hunpack⟩ : x.toModel.unpack = .notANumber ∨ ∃ sign, x.toModel.unpack = .infinity sign :=
      unpack_of_infinity_le (Nat.le_of_not_lt hinfinite)
    · exact .inl (congrArg UnpackedFloat.abs hunpack)
    · exact .inr (congrArg UnpackedFloat.abs hunpack)
  rcases habs with habs | habs
  all_goals
    rw [habs] at hlt
    revert hlt
    decide +kernel

/-- The pattern of `10 ^ 21`. -/
def boundPattern : Nat := 0x444b1ae4d6e2ef50

theorem ofBits_boundPattern : Float.ofBits boundPattern.toUInt64 = 1e21 :=
  Float.toBits_inj.1 (by decide +kernel)

theorem units_boundPattern : units boundPattern = exponentBound * unitsPerOne := by
  decide +kernel

theorem units_lt_of_abs_lt (h : x.abs < 1e21) : units (pattern x) < exponentBound * unitsPerOne := by
  have hfinite := pattern_lt_of_abs_lt h
  have hbound : boundPattern < infinity := by decide +kernel
  have hlt : x.abs.toModel.unpack.lt (1e21 : Float).toModel.unpack = true := of_decide_eq_true h
  rw [← ofBits_boundPattern, abs_eq_ofBits_pattern hfinite, unpack_ofBits hfinite, unpack_ofBits hbound] at hlt
  rw [← units_boundPattern]
  exact units_strictMono (lt_of_unpacked_lt hlt)

end Blockscript.Number
