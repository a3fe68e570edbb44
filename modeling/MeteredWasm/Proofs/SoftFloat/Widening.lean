import MeteredWasm.Proofs.SoftFloat.Rounding

/-!
# Numbers of wider formats

A format whose fields are not narrower than those of another one has all its numbers: their
significands fit as they are, their exponents are in range, and they stay below its infinities.
-/

namespace MeteredWasm.SoftFloat

-- Powers of numbers are the core library's, as in the formats themselves.
attribute [local instance (high)] instPowNat

namespace Format

/-- Neither field of the first format is wider. -/
structure Within (source target : Format) : Prop where
  fracBits : source.fracBits ≤ target.fracBits
  expBits : source.expBits ≤ target.expBits

example : binary32.Within binary64 ∧ binary64.Within binary128 :=
  ⟨⟨by decide, by decide⟩, ⟨by decide, by decide⟩⟩

/-! ## §1 Exponents -/

theorem expMax_eq {fmt : Format} (hexp : 0 < fmt.expBits) : fmt.expMax = 2 * fmt.bias + 1 := by
  have hpower : 2 ^ fmt.expBits = 2 * 2 ^ (fmt.expBits - 1) := by
    rw [← Nat.pow_succ', Nat.succ_eq_add_one, Nat.sub_add_cancel hexp]
  have hpos := Nat.two_pow_pos (fmt.expBits - 1)
  rw [expMax, bias, hpower]
  omega

/-- The numbers under one exponent are multiples of the last bit. -/
theorem number_exponent {fmt : Format} {exp k : Nat} (hexp : 1 ≤ exp) (hk : 2 ^ fmt.fracBits ≤ k)
    (hk' : k ≤ 2 ^ (fmt.fracBits + 1)) :
    fmt.number ((exp - 1) * 2 ^ fmt.fracBits + k) =
      k * 2 ^ ((exp : ℤ) - fmt.bias - fmt.fracBits) := by
  have hscale : fmt.minScale + (exp - 1 : Nat) = (exp : ℤ) - fmt.bias - fmt.fracBits := by
    rw [minScale]
    omega
  rw [number_place (.inr hk) hk', hscale]

/-- The least number under an exponent is a power of two. -/
theorem number_power {fmt : Format} {exp : Nat} (hexp : 1 ≤ exp) :
    fmt.number (exp * 2 ^ fmt.fracBits) = 2 ^ ((exp : ℤ) - fmt.bias) := by
  have hplace : exp * 2 ^ fmt.fracBits = (exp - 1) * 2 ^ fmt.fracBits + 2 ^ fmt.fracBits := by
    rw [← Nat.succ_mul, Nat.succ_eq_add_one, Nat.sub_add_cancel hexp]
  have hscale : (fmt.fracBits : ℤ) + ((exp : ℤ) - fmt.bias - fmt.fracBits) = exp - fmt.bias := by
    omega
  rw [hplace, number_exponent hexp (Nat.le_refl _)
    (Nat.pow_le_pow_right Nat.two_pos (Nat.le_succ _)), Nat.cast_pow, Nat.cast_ofNat,
    two_pow_mul_zpow, hscale]

/-- The number in place of the infinities is the power of two above all finite numbers. -/
theorem number_infinityMagnitude {fmt : Format} (hexp : 0 < fmt.expBits) :
    fmt.number fmt.infinityMagnitude = 2 ^ (fmt.bias + 1) := by
  have hmax := expMax_eq hexp
  have hpower : (fmt.expMax : ℤ) - fmt.bias = (fmt.bias + 1 : Nat) := by omega
  rw [infinityMagnitude, number_power (by omega), hpower, zpow_natCast]

namespace Within

variable {source target : Format}

theorem bias_le (h : source.Within target) : source.bias ≤ target.bias := by
  have hpower : 2 ^ (source.expBits - 1) ≤ 2 ^ (target.expBits - 1) :=
    Nat.pow_le_pow_right Nat.two_pos (Nat.sub_le_sub_right h.expBits 1)
  exact Nat.sub_le_sub_right hpower 1

theorem minScale_le (h : source.Within target) : target.minScale ≤ source.minScale := by
  have hbias := h.bias_le
  have hfrac := h.fracBits
  rw [minScale, minScale]
  omega

end Within

/-! ## §2 Numbers without rounding -/

/-- Where the shift drops nothing, the point of the grid is the number itself. -/
theorem number_keptSignificand (fmt : Format) (scale : Int) {sig : Nat} (hsig : sig ≠ 0)
    (hshift : roundingShift fmt scale sig ≤ 0) :
    fmt.number (roundingOffset fmt scale sig * 2 ^ fmt.fracBits + keptSignificand fmt scale sig) =
      sig * 2 ^ scale := by
  have hgrid := onGrid_keptSignificand fmt scale hsig
  rw [number_place hgrid.normal hgrid.le, minScale_add_roundingOffset, keptSignificand,
    if_pos hshift]
  obtain ⟨count, hcount⟩ : ∃ count : Nat, roundingShift fmt scale sig = -count :=
    ⟨(-roundingShift fmt scale sig).toNat, by omega⟩
  rw [hcount, neg_neg, Int.toNat_natCast, Nat.cast_mul, Nat.cast_pow, Nat.cast_ofNat, mul_assoc,
    two_pow_mul_zpow]
  congr 2
  ring

/-- Every finite number of a format is one of every wider format. -/
theorem Within.exists_number {source target : Format} (h : source.Within target)
    (hexp : 0 < source.expBits) {m : Nat} (hm : m < source.infinityMagnitude) :
    ∃ m' < target.infinityMagnitude, target.number m' = source.number m := by
  have hexp' : 0 < target.expBits := Nat.lt_of_lt_of_le hexp h.expBits
  by_cases hzero : m = 0
  · exact ⟨0, infinityMagnitude_pos hexp', by rw [hzero, number_zero, number_zero]⟩
  · have hscale := h.minScale_le
    have hwidth : bitWidth (source.significand m) ≤ target.fracBits + 1 :=
      (bitWidth_le_iff.mpr (significand_lt source m)).trans (Nat.succ_le_succ h.fracBits)
    have hshift : roundingShift target (source.minScale + source.offset m)
        (source.significand m) ≤ 0 := by
      rw [roundingShift]
      omega
    have hsame := number_keptSignificand target _ (significand_pos source hzero) hshift
    refine ⟨_, ?_, hsame⟩
    -- the numbers in place of the infinities are in order as the biases are
    rw [← (number_strictMono target).lt_iff_lt, hsame]
    calc source.number m < source.number source.infinityMagnitude := number_strictMono source hm
      _ = 2 ^ (source.bias + 1) := number_infinityMagnitude hexp
      _ ≤ 2 ^ (target.bias + 1) :=
          pow_le_pow_right₀ one_le_two (Nat.succ_le_succ h.bias_le)
      _ = target.number target.infinityMagnitude := (number_infinityMagnitude hexp').symm

/-- Every finite encoding of a format stands for the number of one of every wider format. -/
theorem Within.exists_value {source target : Format} (h : source.Within target)
    (hexp : 0 < source.expBits) {bits : Nat} (hfinite : source.IsFinite bits) :
    ∃ other, target.IsFinite other ∧ target.value other = source.value bits := by
  obtain ⟨m, hm, hnumber⟩ := h.exists_number hexp (isFinite_iff.mp hfinite)
  have hlt := Nat.lt_trans hm (infinityMagnitude_lt target)
  refine ⟨target.signed (source.isNegative bits) m, ?_, ?_⟩
  · rwa [isFinite_iff, magnitude_signed hlt]
  · rw [value_signed hlt, hnumber, value]

/-! ## §3 Rounding what is there already -/

variable {fmt : Format}

theorem IsFinite.abs_value_lt {bits : Nat} (h : fmt.IsFinite bits) :
    |fmt.value bits| < fmt.overflowThreshold := by
  have hlt := isFinite_iff.mp h
  have hlast : fmt.number (fmt.magnitude bits) ≤ fmt.number (fmt.infinityMagnitude - 1) :=
    (number_strictMono fmt).monotone (Nat.le_sub_one_of_lt hlt)
  have hnext := number_strictMono fmt hlt
  rw [value, abs_sign_mul, abs_of_nonneg (number_nonneg fmt _), overflowThreshold]
  linarith

/-- Nothing is nearer to a number of the format than the number itself. -/
theorem Rounds.value_eq {r other : Nat} (h : fmt.Rounds (fmt.value other) r)
    (hother : fmt.IsFinite other) : fmt.IsFinite r ∧ fmt.value r = fmt.value other := by
  have hnearest := h.nearest hother.abs_value_lt
  have hle := hnearest.nearest other hother
  rw [sub_self, abs_zero, abs_nonpos_iff, sub_eq_zero] at hle
  exact ⟨hnearest.finite, hle.symm⟩

end Format

end MeteredWasm.SoftFloat
