import SimpleBinary.Float

/-! Widening a single to a double loses nothing: narrowing the double and
widening it again gives the same double, also for infinities, NaNs and
numbers below the least normal single. -/
namespace SimpleBinary.Double

private theorem magnitude_ofFields (negative : Bool) {m : Nat} (hm : m < 1 <<< 63) :
    (ofFields negative m).magnitude = m := by
  have hsign : FloatFormat.double.sign = 9223372036854775808 := by decide
  have hm : m < 9223372036854775808 := hm
  unfold ofFields magnitude
  rw [hsign, UInt64.toNat_ofNat', show (1 <<< 63 : Nat) = 9223372036854775808 by decide]
  cases negative <;> simp <;> omega

private theorem isNegative_ofFields (negative : Bool) {m : Nat} (hm : m < 1 <<< 63) :
    (ofFields negative m).isNegative = negative := by
  have hsign : FloatFormat.double.sign = 9223372036854775808 := by decide
  have hm : m < 9223372036854775808 := hm
  unfold ofFields isNegative
  rw [hsign]
  cases negative <;> simp [UInt64.le_iff_toNat_le] <;> omega

private def single (negative : Bool) (m : Nat) : UInt32 :=
  UInt32.ofNat ((if negative then FloatFormat.single.sign else 0) + m)

private theorem exists_single (bits : UInt32) :
    ∃ negative m, m < 2147483648 ∧ bits = single negative m := by
  have hsign : FloatFormat.single.sign = 2147483648 := by decide
  have hbits := bits.toNat_lt
  refine ⟨decide (2147483648 ≤ bits.toNat), bits.toNat % 2147483648, by omega, ?_⟩
  apply UInt32.toNat_inj.mp
  rw [single, hsign, UInt32.toNat_ofNat']
  split <;> simp_all <;> omega

private def widened (m : Nat) : Nat :=
  let field := m / 8388608
  let fraction := m % 8388608
  if field = 255 then
    if fraction = 0 then 2047 * 4503599627370496
    else 2047 * 4503599627370496 + (fraction % 4194304 + 4194304) * 536870912
  else if field = 0 then
    if fraction = 0 then 0
    else (Nat.log2 fraction + 874) * 4503599627370496 +
      (fraction - 1 <<< Nat.log2 fraction) <<< (52 - Nat.log2 fraction)
  else (field + 896) * 4503599627370496 + fraction * 536870912

private theorem ofSingleBits_single (negative : Bool) {m : Nat} (hm : m < 2147483648) :
    ofSingleBits (single negative m) = ofFields negative (widened m) := by
  have hsign : FloatFormat.single.sign = 2147483648 := by decide
  have hinfinity : FloatFormat.double.infinity = 2047 * 4503599627370496 := by decide
  have hnat : (single negative m).toNat = (if negative then 2147483648 else 0) + m := by
    rw [single, hsign, UInt32.toNat_ofNat']
    cases negative <;> simp <;> omega
  have hnegative : decide (0x80000000 ≤ single negative m) = negative := by
    cases negative <;> simp [UInt32.le_iff_toNat_le, hnat]
    omega
  have hmod : (single negative m).toNat % (1 <<< 31) = m := by
    rw [hnat, show (1 <<< 31 : Nat) = 2147483648 by decide]
    cases negative <;> simp <;> omega
  unfold ofSingleBits widened
  simp only [hnegative, hmod, hinfinity, Nat.shiftRight_eq_div_pow]
  simp only [Nat.shiftLeft_eq, Nat.one_mul, Nat.reducePow]
  split
  · split <;> rfl
  · split
    · split <;> rfl
    · rfl

private def narrowed (m : Nat) : Nat :=
  let field := m / 4503599627370496
  let fraction := m % 4503599627370496
  if field = 2047 then
    if fraction = 0 then 2139095040
    else 2139095040 + (fraction / 536870912 % 4194304 + 4194304)
  else if 897 ≤ field then
    min (Decimal.roundDiv m 536870912 - 7516192768) 2139095040
  else Decimal.roundDiv (4503599627370496 + fraction) (1 <<< (29 + (897 - field)))

private theorem toSingleBits_ofFields (negative : Bool) {m : Nat} (hm : m < 1 <<< 63) :
    toSingleBits (ofFields negative m) = single negative (narrowed m) := by
  have hinfinity : FloatFormat.single.infinity = 2139095040 := by decide
  unfold toSingleBits single narrowed
  rw [magnitude_ofFields negative hm, isNegative_ofFields negative hm, hinfinity]
  simp only [Nat.shiftRight_eq_div_pow, Nat.shiftLeft_eq, Nat.one_mul, Nat.reducePow,
    Nat.reduceMul]

/-- Below the least normal single the leading bit moves into the exponent;
what is behind it fills the fraction from the left. -/
private theorem subnormal_fraction {fraction : Nat} (hpos : fraction ≠ 0)
    (hfraction : fraction < 8388608) :
    Nat.log2 fraction ≤ 22 ∧
      (fraction - 1 <<< Nat.log2 fraction) <<< (52 - Nat.log2 fraction) < 4503599627370496 ∧
      4503599627370496 + (fraction - 1 <<< Nat.log2 fraction) <<< (52 - Nat.log2 fraction) =
        fraction * 1 <<< (52 - Nat.log2 fraction) := by
  have hlow := Nat.log2_self_le hpos
  have hhigh := Nat.lt_log2_self (n := fraction)
  have hlead : Nat.log2 fraction < 23 := (Nat.log2_lt hpos).mpr (by simpa using hfraction)
  generalize Nat.log2 fraction = lead at hlow hhigh hlead
  have hsplit : 2 ^ lead * 2 ^ (52 - lead) = 4503599627370496 := by
    rw [← Nat.pow_add, show lead + (52 - lead) = 52 by omega]
  have hpower : 0 < 2 ^ (52 - lead) := Nat.two_pow_pos _
  simp only [Nat.shiftLeft_eq, Nat.one_mul]
  refine ⟨by omega, ?_, ?_⟩
  · rw [← hsplit]
    apply Nat.mul_lt_mul_of_pos_right _ hpower
    rw [Nat.pow_succ] at hhigh
    omega
  · rw [← hsplit, ← Nat.add_mul, Nat.add_sub_cancel' hlow]

private theorem widened_lt {m : Nat} (hm : m < 2147483648) : widened m < 1 <<< 63 := by
  rw [show (1 <<< 63 : Nat) = 9223372036854775808 by decide]
  unfold widened
  dsimp only
  split
  · split <;> omega
  · split
    · split
      · omega
      · next hfraction =>
        obtain ⟨hlead, hrest, -⟩ := subnormal_fraction hfraction (by omega)
        omega
    · omega

private theorem narrowed_widened {m : Nat} (hm : m ≤ 2139095040) : narrowed (widened m) = m := by
  unfold widened
  dsimp only
  split
  · rw [if_pos (by omega)]
    have hm : m = 2139095040 := by omega
    subst hm
    decide
  · split
    · split
      · have hm : m = 0 := by omega
        subst hm
        decide
      · next hfield hfraction =>
        -- a subnormal single: its leading bit is implied in the double
        have hm : m % 8388608 = m := by omega
        rw [hm] at hfraction ⊢
        obtain ⟨hlead, hrest, hsum⟩ := subnormal_fraction hfraction (by omega)
        generalize hlog : Nat.log2 m = lead at hlead hrest hsum
        generalize hshift : (m - 1 <<< lead) <<< (52 - lead) = rest at hrest hsum
        unfold narrowed
        dsimp only
        rw [show ((lead + 874) * 4503599627370496 + rest) / 4503599627370496 = lead + 874 by omega,
          show ((lead + 874) * 4503599627370496 + rest) % 4503599627370496 = rest by omega,
          if_neg (by omega), if_neg (by omega), show 29 + (897 - (lead + 874)) = 52 - lead by omega,
          hsum]
        refine Decimal.roundDiv_mul _ _ ?_
        rw [Nat.shiftLeft_eq, Nat.one_mul]
        exact Nat.two_pow_pos _
    · next hinfinite hfield =>
      generalize hf : m / 8388608 = field at hinfinite hfield
      generalize hr : m % 8388608 = fraction
      unfold narrowed
      dsimp only
      rw [if_neg (by omega), if_pos (by omega),
        show (field + 896) * 4503599627370496 + fraction * 536870912 =
          ((field + 896) * 8388608 + fraction) * 536870912 by omega,
        Decimal.roundDiv_mul _ _ (by decide)]
      omega

/-- A NaN becomes quiet when it is widened, and stays as it is then. -/
private theorem widened_narrowed_nan {m : Nat} (hnan : 2139095040 < m) (hm : m < 2147483648) :
    widened (narrowed (widened m)) = widened m ∧ narrowed (widened m) < 2147483648 := by
  have hpayload : m % 8388608 % 4194304 < 4194304 := Nat.mod_lt _ (by decide)
  have hwide : widened m =
      2047 * 4503599627370496 + (m % 8388608 % 4194304 + 4194304) * 536870912 := by
    unfold widened
    dsimp only
    rw [if_pos (by omega), if_neg (by omega)]
  generalize m % 8388608 % 4194304 = payload at hpayload hwide
  have hnarrow : narrowed (widened m) = payload + 2143289344 := by
    rw [hwide]
    unfold narrowed
    dsimp only
    rw [if_pos (by omega), if_neg (by omega)]
    omega
  rw [hnarrow]
  refine ⟨?_, by omega⟩
  rw [hwide]
  unfold widened
  dsimp only
  rw [if_pos (by omega), if_neg (by omega)]
  omega

theorem ofSingleBits_toSingleBits_ofSingleBits (bits : UInt32) :
    ofSingleBits (toSingleBits (ofSingleBits bits)) = ofSingleBits bits := by
  obtain ⟨negative, m, hm, rfl⟩ := exists_single bits
  rw [ofSingleBits_single negative hm, toSingleBits_ofFields negative (widened_lt hm)]
  by_cases hnan : m ≤ 2139095040
  · rw [narrowed_widened hnan, ofSingleBits_single negative hm]
  · obtain ⟨hsame, hbound⟩ := widened_narrowed_nan (by omega) hm
    rw [ofSingleBits_single negative hbound, hsame]

end SimpleBinary.Double
