import MeteredWasm.Proofs.SoftFloat.Rounding
import MeteredWasm.SoftFloat.Arithmetic

/-!
# Quotients are rounded correctly

Restoring division keeps one equation: quotient and remainder together are the dividend, twice as
much with every step. Two significands that have all their bits have a quotient above one half, so
it gets more bits than the precision, and the remainder is enough to round it once.
-/

namespace MeteredWasm.SoftFloat

-- Powers of numbers are the core library's, as in the formats themselves.
attribute [local instance (high)] instPowNat

open Format

variable {fmt : Format}

/-! ## §1 Restoring division -/

/-- Each step doubles what quotient and remainder stand for together. The remainder stays below
twice the divisor, so no step would have to subtract it twice. -/
theorem divideSteps_spec {divisor : Nat} (steps : Nat) {rem quot : Nat} (hrem : rem < 2 * divisor) :
    (divideSteps divisor steps rem quot).1 * (2 * divisor) +
          (divideSteps divisor steps rem quot).2 =
        2 ^ steps * (quot * (2 * divisor) + rem) ∧
      (divideSteps divisor steps rem quot).2 < 2 * divisor := by
  induction steps generalizing rem quot with
  | zero => exact ⟨(Nat.one_mul _).symm, hrem⟩
  | succ steps ih =>
    rw [divideSteps, Nat.pow_succ, Nat.mul_assoc]
    split
    · rename_i hle
      obtain ⟨hvalue, hlt⟩ := @ih ((rem - divisor) * 2) (quot * 2 + 1) (by omega)
      refine ⟨hvalue.trans (congrArg _ ?_), hlt⟩
      obtain ⟨rest, rfl⟩ := Nat.exists_eq_add_of_le hle
      rw [Nat.add_sub_cancel_left]
      ring
    · rename_i hlt
      obtain ⟨hvalue, hrest⟩ := @ih (rem * 2) (quot * 2) (by omega)
      refine ⟨hvalue.trans (congrArg _ ?_), hrest⟩
      ring

/-- With all its bits a significand stands for the same number. -/
theorem normalize_spec {sig : Nat} (hsig : sig ≠ 0) (hlt : sig < 2 ^ (fmt.fracBits + 1))
    (scale : Int) :
    2 ^ fmt.fracBits ≤ (normalize fmt sig scale).1 ∧
      (normalize fmt sig scale).1 < 2 ^ (fmt.fracBits + 1) ∧
      ((normalize fmt sig scale).1 * 2 ^ (normalize fmt sig scale).2 : ℝ) = sig * 2 ^ scale := by
  have hwidth : bitWidth sig ≤ fmt.fracBits + 1 := bitWidth_le_iff.mpr hlt
  have hpos := bitWidth_pos.mpr hsig
  rw [normalize]
  refine ⟨?_, ?_, ?_⟩
  · exact two_pow_le_mul_two_pow (two_pow_bitWidth_sub_one_le hsig) (by omega)
  · exact mul_two_pow_lt (lt_two_pow_bitWidth sig) (by omega)
  · push_cast
    rw [mul_assoc, two_pow_mul_zpow]
    congr 2
    ring

/-! ## §2 Quotients of finite numbers -/

/-- The quotient of two significands, to three bits beyond the precision. -/
def packQuotient (fmt : Format) (negative : Bool) (scale : Int) (sigA sigB : Nat) : Nat :=
  roundPack fmt negative (scale - (fmt.fracBits + 3 : Nat))
    (divideSteps sigB (fmt.fracBits + 3 + 1) sigA 0).1
    ((divideSteps sigB (fmt.fracBits + 3 + 1) sigA 0).2 != 0)

theorem rounds_packQuotient (hfrac : 0 < fmt.fracBits) (hexp : 0 < fmt.expBits)
    (hword : fmt.fracBits ≤ 112) (negative : Bool) (scale : Int) {sigA sigB : Nat}
    (hA : 2 ^ fmt.fracBits ≤ sigA) (hltA : sigA < 2 ^ (fmt.fracBits + 1))
    (hB : 2 ^ fmt.fracBits ≤ sigB) (hltB : sigB < 2 ^ (fmt.fracBits + 1)) :
    fmt.Rounds (sign negative * (sigA / sigB * 2 ^ scale))
      (packQuotient fmt negative scale sigA sigB) := by
  rw [Nat.pow_succ] at hltA hltB
  have hrem : sigA < 2 * sigB := by omega
  obtain ⟨hvalue, hrest⟩ := @divideSteps_spec sigB (fmt.fracBits + 3 + 1) sigA 0 hrem
  rw [packQuotient]
  generalize (divideSteps sigB (fmt.fracBits + 3 + 1) sigA 0).1 = quot at *
  generalize (divideSteps sigB (fmt.fracBits + 3 + 1) sigA 0).2 = rest at *
  rw [Nat.zero_mul, Nat.zero_add, Nat.pow_succ] at hvalue
  have hdivisor : (0 : ℝ) < 2 * sigB := by
    have hpos : (0 : ℝ) < sigB := by exact_mod_cast Nat.lt_of_lt_of_le (Nat.two_pow_pos _) hB
    positivity
  have hquotient : (sigA / sigB * 2 ^ scale : ℝ) =
      (quot + rest / (2 * sigB)) * 2 ^ (scale - (fmt.fracBits + 3 : Nat)) := by
    have hscale : (2 : ℝ) ^ scale =
        2 ^ (fmt.fracBits + 3) * 2 ^ (scale - (fmt.fracBits + 3 : Nat)) := by
      rw [two_pow_mul_zpow]
      congr 1
      ring
    have hsplit : (quot : ℝ) * (2 * sigB) + rest = 2 ^ (fmt.fracBits + 3) * 2 * sigA := by
      exact_mod_cast hvalue
    have hpart : (quot + rest / (2 * sigB) : ℝ) = sigA / sigB * 2 ^ (fmt.fracBits + 3) := by
      rw [← mul_div_cancel_right₀ (quot : ℝ) hdivisor.ne', ← add_div, hsplit]
      rw [mul_assoc, mul_div_assoc, mul_div_mul_left _ _ two_ne_zero, mul_comm]
    rw [hscale, hpart, mul_assoc]
  rw [hquotient]
  refine rounds_roundPack_part hfrac hexp negative hword ?_ (by positivity) ?_ ?_
  · -- the quotient of two significands is above one half
    have hlarge : 2 ^ (fmt.fracBits + 3) * 2 < (quot + 1) * 4 := by
      refine Nat.lt_of_mul_lt_mul_right (a := sigA) ?_
      calc 2 ^ (fmt.fracBits + 3) * 2 * sigA = quot * (2 * sigB) + rest := hvalue.symm
        _ < (quot + 1) * (2 * sigB) := by
            rw [Nat.add_one_mul quot]
            exact Nat.add_lt_add_left hrest _
        _ ≤ (quot + 1) * (4 * sigA) := Nat.mul_le_mul_left _ (by omega)
        _ = (quot + 1) * 4 * sigA := (Nat.mul_assoc ..).symm
    rw [Nat.pow_add _ _ 3] at hlarge
    by_contra hnarrow
    have hlt : quot < 2 ^ (fmt.fracBits + 1) := bitWidth_le_iff.mp (by omega)
    rw [Nat.pow_succ] at hlt
    omega
  · rw [div_lt_one hdivisor]
    exact_mod_cast hrest
  · rw [bne_iff_ne, div_ne_zero_iff, Nat.cast_ne_zero]
    exact (and_iff_left hdivisor.ne').symm

/-! ## §3 Quotients of encodings -/

namespace Format

/-- `r` is the quotient of two encodings. A zero or an infinity has the sign of the quotient. -/
structure IsQuotient (fmt : Format) (a b r : Nat) : Prop where
  nan : fmt.IsPropagated a b r
  invalid : fmt.IsInfinite a ∧ fmt.IsInfinite b ∨ fmt.IsZero a ∧ fmt.IsZero b →
    r = fmt.defaultNaN
  infinite : fmt.IsInfinite a ∧ fmt.IsFinite b ∨
      fmt.IsFinite a ∧ ¬fmt.IsZero a ∧ fmt.IsZero b →
    r = fmt.infinity (fmt.isNegative a != fmt.isNegative b)
  zero : fmt.IsFinite a ∧ fmt.IsInfinite b ∨ fmt.IsZero a ∧ fmt.IsFinite b ∧ ¬fmt.IsZero b →
    r = fmt.zero (fmt.isNegative a != fmt.isNegative b)
  finite : fmt.IsFinite a → fmt.IsFinite b → ¬fmt.IsZero a → ¬fmt.IsZero b →
    fmt.Rounds (fmt.value a / fmt.value b) r

end Format

variable {a b : Nat}

theorem div_of_isNaN (h : fmt.isNaN a ∨ fmt.isNaN b) : div fmt a b = fmt.propagateNaN a b := by
  rcases h with h | h
  · rw [div, unpack_nan h]
  · rw [div, unpack_nan h]
    rcases fmt.unpack a with ⟨negative, _ | _ | _ | _⟩ <;> rfl

theorem div_infinite_finite (ha : fmt.IsInfinite a) (hb : fmt.IsFinite b) :
    div fmt a b = fmt.infinity (fmt.isNegative a != fmt.isNegative b) ∧
      div fmt b a = fmt.zero (fmt.isNegative b != fmt.isNegative a) := by
  by_cases hzero : fmt.IsZero b
  · rw [div, div, unpack_infinite ha, unpack_zero hb hzero]
    exact ⟨rfl, rfl⟩
  · rw [div, div, unpack_infinite ha, unpack_finite hb hzero]
    exact ⟨rfl, rfl⟩

theorem div_zero_nonzero (ha : fmt.IsZero a) (hb : fmt.IsFinite b) (hne : ¬fmt.IsZero b)
    (hexp : 0 < fmt.expBits) :
    div fmt a b = fmt.zero (fmt.isNegative a != fmt.isNegative b) ∧
      div fmt b a = fmt.infinity (fmt.isNegative b != fmt.isNegative a) := by
  rw [div, div, unpack_zero (ha.isFinite hexp) ha, unpack_finite hb hne]
  exact ⟨rfl, rfl⟩

theorem sign_div (a b : Bool) : sign a / sign b = sign (a != b) := by
  cases a <;> cases b <;> simp [sign]

theorem rounds_div (hfrac : 0 < fmt.fracBits) (hexp : 0 < fmt.expBits)
    (hword : fmt.fracBits ≤ 112) (hfiniteA : fmt.IsFinite a) (hfiniteB : fmt.IsFinite b)
    (hzeroA : ¬fmt.IsZero a) (hzeroB : ¬fmt.IsZero b) :
    fmt.Rounds (fmt.value a / fmt.value b) (div fmt a b) := by
  obtain ⟨hA, hltA, hvalueA⟩ := normalize_spec (significand_pos fmt hzeroA)
    (significand_lt fmt _) (fmt.minScale + fmt.offset (fmt.magnitude a))
  obtain ⟨hB, hltB, hvalueB⟩ := normalize_spec (significand_pos fmt hzeroB)
    (significand_lt fmt _) (fmt.minScale + fmt.offset (fmt.magnitude b))
  have hquotient : fmt.value a / fmt.value b = _ :=
    mul_div_mul_comm _ _ _ _
  rw [number, number, ← hvalueA, ← hvalueB, mul_div_mul_comm, ← zpow_sub₀ two_ne_zero,
    sign_div] at hquotient
  rw [hquotient, div, unpack_finite hfiniteA hzeroA, unpack_finite hfiniteB hzeroB]
  exact rounds_packQuotient hfrac hexp hword _ _ hA hltA hB hltB

theorem isQuotient_div (hfrac : 0 < fmt.fracBits) (hexp : 0 < fmt.expBits)
    (hword : fmt.fracBits ≤ 112) (a b : Nat) : fmt.IsQuotient a b (div fmt a b) where
  nan := .of_eq hfrac div_of_isNaN
  invalid := by
    rintro (⟨hA, hB⟩ | ⟨hA, hB⟩)
    · rw [div, unpack_infinite hA, unpack_infinite hB]
    · rw [div, unpack_zero (hA.isFinite hexp) hA, unpack_zero (hB.isFinite hexp) hB]
  infinite := by
    rintro (⟨hA, hB⟩ | ⟨hA, hne, hB⟩)
    · exact (div_infinite_finite hA hB).1
    · exact (div_zero_nonzero hB hA hne hexp).2
  zero := by
    rintro (⟨hA, hB⟩ | ⟨hA, hB, hne⟩)
    · exact (div_infinite_finite hB hA).2
    · exact (div_zero_nonzero hA hB hne hexp).1
  finite := rounds_div hfrac hexp hword

/-- In all three formats, quotients are the exact ones rounded once, to nearest and ties to even. -/
theorem div_correctly_rounded (hfmt : fmt ∈ [binary32, binary64, binary128]) (a b : Nat) :
    fmt.IsQuotient a b (div fmt a b) := by
  obtain ⟨hfrac, hexp, hword⟩ := widths_of_mem hfmt
  exact isQuotient_div hfrac hexp hword a b

/-- Half of three times the least negative number is a tie between one and two times that number,
and two is even. -/
theorem div_three_halves : binary32.IsQuotient 0x80000003 0x40000000 0x80000002 := by
  have hdiv : div binary32 0x80000003 0x40000000 = 0x80000002 := by decide +kernel
  have hquotient := @div_correctly_rounded binary32 (by decide) 0x80000003 0x40000000
  rwa [hdiv] at hquotient

end MeteredWasm.SoftFloat
