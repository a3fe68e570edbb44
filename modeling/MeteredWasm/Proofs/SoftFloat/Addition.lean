import MeteredWasm.Proofs.SoftFloat.Rounding
import MeteredWasm.SoftFloat.Arithmetic

/-!
# Sums and differences are rounded correctly

Both operands are put on the grid of the larger one, three bits finer. Either the smaller one loses
nothing, and the sum is exact, or the larger one is normal and much larger: then the bit that stands
for what was lost is the middle of two points that are still finer than the precision of the result,
and the exact sum is between the same two points.
-/

namespace MeteredWasm.SoftFloat

-- Powers of numbers are the core library's, as in the formats themselves.
attribute [local instance (high)] instPowNat

open Format

/-! ## §1 Alignment -/

/-- Three guard bits. -/
theorem guard_mul_zpow (sig : Nat) (scale : Int) :
    ((sig * 8 : Nat) * 2 ^ (scale - 3) : ℝ) = sig * 2 ^ scale := by
  rw [zpow_sub₀ two_ne_zero]
  push_cast
  ring

section Alignment

variable {sig shift : Nat} (scale : Int)

theorem shiftRightJam_exact (h : sig % 2 ^ shift = 0) :
    (shiftRightJam sig shift * 2 ^ (scale + shift) : ℝ) = sig * 2 ^ scale := by
  rw [shiftRightJam, if_pos h, shifted_exact scale h]

/-- With bits lost, the last bit is the middle of the two points of a coarser grid that the number
is between. -/
theorem shiftRightJam_inexact (h : sig % 2 ^ shift ≠ 0) :
    shiftRightJam sig shift = 2 * (sig / 2 ^ (shift + 1)) + 1 ∧
      Between (sig / 2 ^ (shift + 1)) (scale + shift + 1) (sig * 2 ^ scale) := by
  constructor
  · rw [shiftRightJam, if_neg h, withLowBit, Nat.pow_succ, ← Nat.div_div_eq_div_mul, Nat.mul_comm]
  · have hlost : sig % 2 ^ (shift + 1) ≠ 0 := by
      intro hzero
      have hmod : sig % 2 ^ (shift + 1) % 2 ^ shift = sig % 2 ^ shift :=
        Nat.mod_mod_of_dvd sig (Nat.pow_dvd_pow 2 (Nat.le_succ shift))
      rw [hzero, Nat.zero_mod] at hmod
      exact h hmod.symm
    have hbetween := shifted_between scale hlost
    rwa [Nat.cast_succ, ← add_assoc] at hbetween

end Alignment

/-! ## §2 Sums of finite numbers -/

/-- The exact sum `x` of two numbers, of which one is not zero, is rounded. A zero is positive. -/
structure RoundsSum (fmt : Format) (x : ℝ) (r : Nat) : Prop where
  cancelled : x = 0 → r = fmt.zero false
  rounded : x ≠ 0 → fmt.Rounds x r

variable {fmt : Format}

theorem sign_mul_ne_zero {negative : Bool} {x : ℝ} (hx : 0 < x) : sign negative * x ≠ 0 := by
  cases negative <;> simp [sign, hx.ne']

theorem RoundsSum.of_rounds {x y : ℝ} {negative : Bool} {r : Nat} (hy : 0 < y)
    (hx : x = sign negative * y) (h : fmt.Rounds (sign negative * y) r) : RoundsSum fmt x r := by
  subst hx
  exact ⟨fun hzero => absurd hzero (sign_mul_ne_zero hy), fun _ => h⟩

theorem sign_of_ne {a b : Bool} (h : a ≠ b) : sign b = -sign a := by
  rw [← sign_not, Bool.eq_not_of_ne h, Bool.not_not]

section Sums

variable (hfrac : 0 < fmt.fracBits) (hexp : 0 < fmt.expBits) {x : ℝ} {negBig negSmall : Bool}

include hfrac hexp

theorem roundsSum_roundPack {sig : Nat} {scale : Int} (hsig : sig ≠ 0) (negative : Bool)
    (hx : x = sign negative * (sig * 2 ^ scale)) :
    RoundsSum fmt x (roundPack fmt negative scale sig false) :=
  .of_rounds (mul_pos (by exact_mod_cast Nat.pos_of_ne_zero hsig) (zpow_pos two_pos _)) hx
    (rounds_roundExact hfrac hexp negative hsig)

theorem roundsSum_middle {n : Nat} {scale : Int} {y : ℝ} (hn : 2 ^ (fmt.fracBits + 1) ≤ n)
    (hy : Between n (scale + 1) y) (negative : Bool) (hx : x = sign negative * y) :
    RoundsSum fmt x (roundPack fmt negative scale (2 * n + 1) false) :=
  .of_rounds hy.pos hx (rounds_roundExact_middle hfrac hexp negative hn hy)

variable {sigBig sigSmall : Nat} {scaleBig scaleSmall : Int}

/-- The sum where alignment loses nothing. -/
theorem roundsSum_exact (hbig : sigBig ≠ 0) {shift : Nat} (hshift : scaleBig = scaleSmall + shift)
    (hlost : sigSmall * 8 % 2 ^ shift = 0)
    (hx : x = sign negBig * (sigBig * 2 ^ scaleBig) + sign negSmall * (sigSmall * 2 ^ scaleSmall)) :
    RoundsSum fmt x (addFinite fmt negBig sigBig scaleBig negSmall sigSmall scaleSmall) := by
  have hdistance : (scaleBig - scaleSmall).toNat = shift := by omega
  have hsmall := shiftRightJam_exact (scaleSmall - 3) hlost
  rw [show scaleSmall - 3 + (shift : Int) = scaleBig - 3 by omega] at hsmall
  rw [← guard_mul_zpow sigBig, ← guard_mul_zpow sigSmall, ← hsmall] at hx
  rw [addFinite, hdistance]
  have hpos : sigBig * 8 ≠ 0 := by omega
  generalize sigBig * 8 = big at *
  generalize shiftRightJam (sigSmall * 8) shift = small at *
  split
  · rename_i hsame
    subst hsame
    refine roundsSum_roundPack hfrac hexp (by omega) negBig ?_
    rw [hx]
    push_cast
    ring
  · rename_i hopposite
    rw [sign_of_ne hopposite] at hx
    split
    · rename_i hequal
      have hzero : x = 0 := by
        rw [hx, hequal]
        ring
      exact ⟨fun _ => rfl, fun hne => absurd hzero hne⟩
    · rename_i hne
      split
      · rename_i hlt
        refine roundsSum_roundPack hfrac hexp (by omega) negBig ?_
        rw [hx]
        push_cast [hlt.le]
        ring
      · rename_i hge
        refine roundsSum_roundPack hfrac hexp (by omega) negSmall ?_
        rw [hx, sign_of_ne hopposite]
        push_cast [Nat.le_of_not_lt hge]
        ring

/-- The sum where bits of the smaller number are lost. The larger one then has all its bits and is
at least twice as large, so the sum keeps more bits than the precision. -/
theorem roundsSum_inexact (hbig : 2 ^ fmt.fracBits ≤ sigBig)
    (hsmall : sigSmall < 2 ^ (fmt.fracBits + 1)) {shift : Nat}
    (hshift : scaleBig = scaleSmall + shift) (hlost : sigSmall * 8 % 2 ^ shift ≠ 0)
    (hx : x = sign negBig * (sigBig * 2 ^ scaleBig) + sign negSmall * (sigSmall * 2 ^ scaleSmall)) :
    RoundsSum fmt x (addFinite fmt negBig sigBig scaleBig negSmall sigSmall scaleSmall) := by
  -- the guard bits make up for a shift by three places
  have hshift' : 4 ≤ shift := by
    by_contra hnot
    have hdvd : 2 ^ shift ∣ 2 ^ 3 := Nat.pow_dvd_pow 2 (by omega)
    exact hlost (Nat.mod_eq_zero_of_dvd (hdvd.mul_left sigSmall))
  obtain ⟨hjam, hbetween⟩ := shiftRightJam_inexact (scaleSmall - 3) hlost
  have hquarter : 4 * (sigSmall * 8 / 2 ^ (shift + 1)) ≤ sigSmall := by
    have hdiv : sigSmall * 8 / 2 ^ (shift + 1) ≤ sigSmall * 8 / 2 ^ 5 :=
      Nat.div_le_div_left (Nat.pow_le_pow_right Nat.two_pos (by omega)) (by decide)
    omega
  have hdistance : (scaleBig - scaleSmall).toNat = shift := by omega
  have hbigValue : (sigBig * 2 ^ scaleBig : ℝ) = 4 * sigBig * 2 ^ (scaleBig - 3 + 1) := by
    rw [← guard_mul_zpow, zpow_add_one₀ two_ne_zero]
    push_cast
    ring
  rw [show scaleSmall - 3 + (shift : Int) + 1 = scaleBig - 3 + 1 by omega, guard_mul_zpow]
    at hbetween
  rw [hbigValue] at hx
  rw [addFinite, hdistance, hjam]
  rw [Nat.pow_succ] at hsmall
  generalize sigSmall * 8 / 2 ^ (shift + 1) = r at *
  generalize (sigSmall * 2 ^ scaleSmall : ℝ) = small at *
  obtain ⟨hlow, hhigh⟩ := hbetween
  split
  · rename_i hsame
    subst hsame
    rw [show sigBig * 8 + (2 * r + 1) = 2 * (4 * sigBig + r) + 1 by ring]
    refine roundsSum_middle hfrac hexp (by rw [Nat.pow_succ]; omega) ⟨?_, ?_⟩ negBig
      (hx.trans (mul_add _ _ _).symm)
    · push_cast
      linarith
    · push_cast
      linarith
  · rename_i hopposite
    -- the points change sides: the difference is above the middle where the number is below it
    obtain ⟨n, hn⟩ : ∃ n, 4 * sigBig = n + r + 1 := ⟨4 * sigBig - r - 1, by omega⟩
    have hreal : (4 * sigBig : ℝ) = n + r + 1 := by exact_mod_cast hn
    rw [hreal, sign_of_ne hopposite] at hx
    rw [if_neg (by omega), if_pos (by omega),
      show sigBig * 8 - (2 * r + 1) = 2 * n + 1 by omega]
    refine roundsSum_middle hfrac hexp (by rw [Nat.pow_succ]; omega) ⟨?_, ?_⟩ negBig
      (y := (n + r + 1) * 2 ^ (scaleBig - 3 + 1) - small) (by rw [hx]; ring)
    · linarith
    · linarith

/-- The sum of two numbers of the format, the first one under the larger exponent. -/
theorem roundsSum_addFinite {m n : Nat} (hm : m ≠ 0) (hoffset : fmt.offset n ≤ fmt.offset m) :
    RoundsSum fmt (sign negBig * fmt.number m + sign negSmall * fmt.number n)
      (addFinite fmt negBig (fmt.significand m) (fmt.minScale + fmt.offset m)
        negSmall (fmt.significand n) (fmt.minScale + fmt.offset n)) := by
  have hshift : fmt.minScale + fmt.offset m =
      fmt.minScale + fmt.offset n + (fmt.offset m - fmt.offset n : Nat) := by omega
  by_cases hlost : fmt.significand n * 8 % 2 ^ (fmt.offset m - fmt.offset n) = 0
  · exact roundsSum_exact hfrac hexp (significand_pos fmt hm) hshift hlost rfl
  · -- something is lost, so the larger exponent is not the least one
    have hne : fmt.offset m ≠ 0 := by
      intro hzero
      rw [hzero, Nat.zero_sub, Nat.pow_zero, Nat.mod_one] at hlost
      exact hlost rfl
    exact roundsSum_inexact hfrac hexp ((normal_or_least m).resolve_left hne)
      (significand_lt fmt n) hshift hlost rfl

end Sums

/-! ## §3 Sums of encodings -/

namespace Format

/-- `r` is the sum of two encodings, where the second one counts with the sign `negative` and `x` is
the exact sum, if both are numbers. -/
structure IsSum (fmt : Format) (a b : Nat) (negative : Bool) (x : ℝ) (r : Nat) : Prop where
  nan : fmt.IsPropagated a b r
  opposite : fmt.IsInfinite a → fmt.IsInfinite b → fmt.isNegative a ≠ negative →
    r = fmt.defaultNaN
  first : fmt.IsInfinite a → ¬fmt.isNaN b → (fmt.IsInfinite b → fmt.isNegative a = negative) →
    r = a
  second : fmt.IsFinite a → fmt.IsInfinite b → r = fmt.infinity negative
  zeros : fmt.IsZero a → fmt.IsZero b → r = fmt.zero (fmt.isNegative a && negative)
  finite : fmt.IsFinite a → fmt.IsFinite b → ¬(fmt.IsZero a ∧ fmt.IsZero b) → RoundsSum fmt x r

end Format

section Encodings

variable {a b : Nat}

theorem add_of_isNaN (h : fmt.isNaN a ∨ fmt.isNaN b) : add fmt a b = fmt.propagateNaN a b := by
  rcases h with h | h
  · rw [add, unpack_nan h]
  · rw [add, unpack_nan h]
    rcases fmt.unpack a with ⟨negative, _ | _ | _ | _⟩ <;> rfl

theorem add_opposite (ha : fmt.IsInfinite a) (hb : fmt.IsInfinite b)
    (hne : fmt.isNegative a ≠ fmt.isNegative b) : add fmt a b = fmt.defaultNaN := by
  rw [add, unpack_infinite ha, unpack_infinite hb]
  exact if_neg hne

theorem add_infinite (ha : fmt.IsInfinite a) (hb : ¬fmt.isNaN b)
    (hsame : fmt.IsInfinite b → fmt.isNegative a = fmt.isNegative b) : add fmt a b = a := by
  rcases finite_or_infinite hb with hfinite | hinfinite
  · by_cases hzero : fmt.IsZero b
    · rw [add, unpack_infinite ha, unpack_zero hfinite hzero]
    · rw [add, unpack_infinite ha, unpack_finite hfinite hzero]
  · rw [add, unpack_infinite ha, unpack_infinite hinfinite]
    exact if_pos (hsame hinfinite)

theorem add_of_infinite (ha : fmt.IsFinite a) (hb : fmt.IsInfinite b) : add fmt a b = b := by
  by_cases hzero : fmt.IsZero a
  · rw [add, unpack_zero ha hzero, unpack_infinite hb]
  · rw [add, unpack_finite ha hzero, unpack_infinite hb]

/-- The sum of two numbers that are not both zero. -/
theorem roundsSum_add (hfrac : 0 < fmt.fracBits) (hexp : 0 < fmt.expBits)
    (ha : a < 2 ^ fmt.width) (hb : b < 2 ^ fmt.width) (hfiniteA : fmt.IsFinite a)
    (hfiniteB : fmt.IsFinite b) (hne : ¬(fmt.IsZero a ∧ fmt.IsZero b)) :
    RoundsSum fmt (fmt.value a + fmt.value b) (add fmt a b) := by
  by_cases hzeroA : fmt.IsZero a
  · have hzeroB : ¬fmt.IsZero b := fun hzeroB => hne ⟨hzeroA, hzeroB⟩
    have hadd : add fmt a b = b := by
      rw [add, unpack_zero hfiniteA hzeroA, unpack_finite hfiniteB hzeroB]
    rw [hadd, value_eq_zero.mpr hzeroA, zero_add]
    exact ⟨fun hzero => absurd (value_eq_zero.mp hzero) hzeroB,
      fun _ => rounds_value hfrac hexp hb hfiniteB hzeroB⟩
  by_cases hzeroB : fmt.IsZero b
  · have hadd : add fmt a b = a := by
      rw [add, unpack_zero hfiniteB hzeroB, unpack_finite hfiniteA hzeroA]
    rw [hadd, value_eq_zero.mpr hzeroB, add_zero]
    exact ⟨fun hzero => absurd (value_eq_zero.mp hzero) hzeroA,
      fun _ => rounds_value hfrac hexp ha hfiniteA hzeroA⟩
  rw [add, unpack_finite hfiniteA hzeroA, unpack_finite hfiniteB hzeroB]
  dsimp only
  split
  · rename_i hle
    exact roundsSum_addFinite hfrac hexp hzeroA (by omega)
  · rename_i hlt
    rw [add_comm]
    exact roundsSum_addFinite hfrac hexp hzeroB (by omega)

theorem isSum_add (hfrac : 0 < fmt.fracBits) (hexp : 0 < fmt.expBits)
    (ha : a < 2 ^ fmt.width) (hb : b < 2 ^ fmt.width) :
    fmt.IsSum a b (fmt.isNegative b) (fmt.value a + fmt.value b) (add fmt a b) where
  nan := .of_eq hfrac add_of_isNaN
  opposite := add_opposite
  first := add_infinite
  second := by
    intro hfinite hinfinite
    rw [add_of_infinite hfinite hinfinite, infinity, ← infinityMagnitude, ← hinfinite.magnitude,
      signed_self hb]
  zeros := by
    intro hzeroA hzeroB
    rw [add, unpack_zero (hzeroA.isFinite hexp) hzeroA, unpack_zero (hzeroB.isFinite hexp) hzeroB]
  finite := roundsSum_add hfrac hexp ha hb

/-! ## §4 Differences -/

theorem neg_lt (hb : b < 2 ^ fmt.width) : neg fmt b < 2 ^ fmt.width := by
  refine Nat.xor_lt_two_pow hb ?_
  rw [signBit]
  exact Nat.pow_lt_pow_right Nat.one_lt_two (by rw [width]; omega)

theorem isNegative_neg (b : Nat) : fmt.isNegative (neg fmt b) = !fmt.isNegative b := by
  rw [isNegative_eq_testBit, isNegative_eq_testBit, neg, signBit, Nat.testBit_xor,
    Nat.testBit_two_pow_self, Bool.xor_true]

theorem magnitude_neg (b : Nat) : fmt.magnitude (neg fmt b) = fmt.magnitude b := by
  rw [magnitude, magnitude, neg, signBit, Nat.xor_mod_two_pow, Nat.mod_self, Nat.xor_zero]

theorem value_neg (b : Nat) : fmt.value (neg fmt b) = -fmt.value b := by
  rw [value, value, isNegative_neg, magnitude_neg, sign_not, neg_mul]

theorem isZero_neg (b : Nat) : fmt.IsZero (neg fmt b) ↔ fmt.IsZero b := by
  rw [IsZero, IsZero, magnitude_neg]

theorem isFinite_neg (b : Nat) : fmt.IsFinite (neg fmt b) ↔ fmt.IsFinite b := by
  rw [isFinite_iff, isFinite_iff, magnitude_neg]

theorem isInfinite_neg (b : Nat) : fmt.IsInfinite (neg fmt b) ↔ fmt.IsInfinite b := by
  rw [IsInfinite, IsInfinite, exponent_eq, exponent_eq, fraction_eq, fraction_eq, magnitude_neg]

theorem isNaN_neg (b : Nat) : fmt.isNaN (neg fmt b) ↔ fmt.isNaN b := by
  rw [isNaN_iff, isNaN_iff, isFinite_neg, isInfinite_neg]

theorem sub_of_isNaN (h : fmt.isNaN a ∨ fmt.isNaN b) : sub fmt a b = fmt.propagateNaN a b := by
  rw [sub, if_pos (by simpa using h)]

theorem sub_eq_add (ha : ¬fmt.isNaN a) (hb : ¬fmt.isNaN b) :
    sub fmt a b = add fmt a (neg fmt b) := by
  rw [sub, if_neg (by simp [ha, hb])]

theorem isSum_sub (hfrac : 0 < fmt.fracBits) (hexp : 0 < fmt.expBits)
    (ha : a < 2 ^ fmt.width) (hb : b < 2 ^ fmt.width) :
    fmt.IsSum a b (!fmt.isNegative b) (fmt.value a - fmt.value b) (sub fmt a b) := by
  have hsum := isSum_add hfrac hexp ha (neg_lt hb)
  rw [isNegative_neg, value_neg, ← sub_eq_add_neg] at hsum
  refine ⟨.of_eq hfrac sub_of_isNaN, ?_, ?_, ?_, ?_, ?_⟩
  · intro hA hB hne
    rw [sub_eq_add hA.not_isNaN hB.not_isNaN]
    exact hsum.opposite hA ((isInfinite_neg b).mpr hB) hne
  · intro hA hB hsame
    rw [sub_eq_add hA.not_isNaN hB]
    exact hsum.first hA (mt (isNaN_neg b).mp hB) fun hinfinite =>
      hsame ((isInfinite_neg b).mp hinfinite)
  · intro hA hB
    rw [sub_eq_add hA.not_isNaN hB.not_isNaN]
    exact hsum.second hA ((isInfinite_neg b).mpr hB)
  · intro hA hB
    rw [sub_eq_add (hA.isFinite hexp).not_isNaN (hB.isFinite hexp).not_isNaN]
    exact hsum.zeros hA ((isZero_neg b).mpr hB)
  · intro hA hB hne
    rw [sub_eq_add hA.not_isNaN hB.not_isNaN]
    exact hsum.finite hA ((isFinite_neg b).mpr hB) (by rwa [isZero_neg])

end Encodings

/-- In all three formats, sums and differences are the exact ones rounded once, to nearest and ties
to even. -/
theorem add_sub_correctly_rounded (hfmt : fmt ∈ [binary32, binary64, binary128]) {a b : Nat}
    (ha : a < 2 ^ fmt.width) (hb : b < 2 ^ fmt.width) :
    fmt.IsSum a b (fmt.isNegative b) (fmt.value a + fmt.value b) (add fmt a b) ∧
      fmt.IsSum a b (!fmt.isNegative b) (fmt.value a - fmt.value b) (sub fmt a b) := by
  obtain ⟨hfrac, hexp, -⟩ := widths_of_mem hfmt
  exact ⟨isSum_add hfrac hexp ha hb, isSum_sub hfrac hexp ha hb⟩

/-- One and half of its unit in the last place. The sum is a tie, and one is even; the difference is
exact. -/
theorem add_sub_one_half_unit :
    binary32.IsSum 0x3F800000 0x33800000 false
        (binary32.value 0x3F800000 + binary32.value 0x33800000) 0x3F800000 ∧
      binary32.IsSum 0x3F800000 0x33800000 true
        (binary32.value 0x3F800000 - binary32.value 0x33800000) 0x3F7FFFFF :=
  @add_sub_correctly_rounded binary32 (by decide) _ _ (by decide) (by decide)

end MeteredWasm.SoftFloat
