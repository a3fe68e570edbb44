import MeteredWasm.Proofs.SoftFloat.Conversion

/-!
# Widening loses nothing

A wider format has an encoding for each number of a narrower one, with the same sign, and it is what
the conversions give in both directions. NaNs keep their sign and their payload. So widening and
narrowing again changes at most the quiet bit, and widening in two steps is widening in one.
-/

namespace MeteredWasm.SoftFloat

-- Powers of numbers are the core library's, as in the formats themselves.
attribute [local instance (high)] instPowNat

namespace Format

variable {source target third : Format} {a b c : Nat}

/-! ## §1 Encodings of one number -/

/-- Two encodings of the same number, which also have the same sign where it is zero. -/
structure SameNumber (source target : Format) (a b : Nat) : Prop where
  left : source.IsFinite a
  right : target.IsFinite b
  value : target.value b = source.value a
  negative : target.isNegative b = source.isNegative a

theorem SameNumber.symm (h : source.SameNumber target a b) : target.SameNumber source b a :=
  ⟨h.right, h.left, h.value.symm, h.negative.symm⟩

theorem SameNumber.trans (h : source.SameNumber target a b) (h' : target.SameNumber third b c) :
    source.SameNumber third a c :=
  ⟨h.left, h'.right, h'.value.trans h.value, h'.negative.trans h.negative⟩

theorem Within.exists_sameNumber (h : source.Within target) (hexp : 0 < source.expBits)
    (hfinite : source.IsFinite a) :
    ∃ b < 2 ^ target.width, source.SameNumber target a b := by
  obtain ⟨m, hm, hnumber⟩ := h.exists_number hexp (isFinite_iff.mp hfinite)
  have hlt := Nat.lt_trans hm (infinityMagnitude_lt target)
  refine ⟨target.signed (source.isNegative a) m, signed_lt _ hlt, hfinite, ?_, ?_, ?_⟩
  · rwa [isFinite_iff, magnitude_signed hlt]
  · rw [value_signed hlt, hnumber, value]
  · exact isNegative_signed hlt

/-- A number that the other format has is converted to its encoding there. -/
theorem SameNumber.convert_eq (h : source.SameNumber target a b) (hb : b < 2 ^ target.width)
    (hfrac : 0 < target.fracBits) (hexp : 0 < target.expBits) : convert source target a = b := by
  have hrounds := convert_finite hfrac hexp h.left
  rw [← h.value, ← h.negative] at hrounds
  by_cases hzero : target.IsZero b
  · have hmagnitude : target.magnitude b = 0 := hzero
    rw [hrounds.zero (value_eq_zero.mpr hzero), zero, ← hmagnitude, signed_self hb]
  · exact (hrounds.nonzero (mt value_eq_zero.mp hzero)).unique
      (rounds_value hfrac hexp hb h.right hzero) hfrac

/-! ## §2 NaNs -/

theorem convert_quietNaN (hfrac : 0 < source.fracBits) {payload : Nat}
    (hpayload : payload < 2 ^ source.fracBits) (negative : Bool) :
    convert source target (source.quietNaN negative payload) =
      target.quietNaN negative (convertPayload source target (payload ||| source.quietBit)) := by
  have hlt : payload ||| source.quietBit < 2 ^ source.fracBits :=
    Nat.or_lt_two_pow hpayload (quietBit_lt hfrac)
  obtain ⟨hmagnitude, hquiet⟩ := isQuietNaN_quietNaN hfrac hpayload negative
  have hnegative : source.isNegative (source.quietNaN negative payload) = negative :=
    isNegative_signed hmagnitude
  have hfraction : source.fraction (source.quietNaN negative payload) =
      payload ||| source.quietBit := fraction_signed hlt negative
  rw [convert_nan hquiet.isNaN, hnegative, hfraction]

/-- A NaN is its sign and its fraction, and setting the quiet bit leaves the rest. -/
theorem quiet_eq_quietNaN (hfrac : 0 < source.fracBits) (h : source.isNaN a)
    (ha : a < 2 ^ source.width) :
    source.quiet a = source.quietNaN (source.isNegative a) (source.fraction a) := by
  have hquieted := isQuieted_quiet hfrac h
  have hexponent : source.exponent (source.quiet a) = source.expMax := by
    have hnan := hquieted.isNaN
    simp only [isNaN, Bool.and_eq_true, beq_iff_eq] at hnan
    exact hnan.1
  have hfraction : source.fraction (source.quiet a) = source.fraction a ||| source.quietBit := by
    rw [fraction, fraction, quiet, Nat.or_mod_two_pow, Nat.mod_eq_of_lt (quietBit_lt hfrac)]
  rw [← signed_self (quiet_lt ha), hquieted.sign, quietNaN, infinityMagnitude,
    ← Nat.div_add_mod' (source.magnitude (source.quiet a)) (2 ^ source.fracBits), ← exponent_eq,
    ← fraction_eq, hexponent, hfraction]

namespace Within

variable (h : source.Within target)

include h

theorem convertPayload_eq (payload : Nat) :
    convertPayload source target payload = payload * 2 ^ (target.fracBits - source.fracBits) :=
  if_pos h.fracBits

/-- The quiet bit stays the first bit of the fraction. -/
theorem convertPayload_quiet (hfrac : 0 < source.fracBits) (payload : Nat) :
    convertPayload source target (payload ||| source.quietBit) =
      convertPayload source target payload ||| target.quietBit := by
  have hbits := h.fracBits
  rw [h.convertPayload_eq, h.convertPayload_eq]
  apply Nat.eq_of_testBit_eq
  intro i
  rw [quietBit, quietBit, Nat.testBit_mul_two_pow, Nat.testBit_or, Nat.testBit_or,
    Nat.testBit_mul_two_pow, Nat.testBit_two_pow, Nat.testBit_two_pow]
  by_cases hi : target.fracBits - source.fracBits ≤ i
  · have hiff : source.fracBits - 1 = i - (target.fracBits - source.fracBits) ↔
        target.fracBits - 1 = i := by omega
    simp [hi, hiff]
  · have hne : target.fracBits - 1 ≠ i := by omega
    simp [hi, hne]

theorem convertPayload_convertPayload (payload : Nat) :
    convertPayload target source (convertPayload source target payload) = payload := by
  rw [h.convertPayload_eq, convertPayload]
  split
  · -- the fractions have the same width
    rename_i hle
    rw [Nat.sub_eq_zero_of_le hle, Nat.sub_eq_zero_of_le h.fracBits, Nat.pow_zero, Nat.mul_one,
      Nat.mul_one]
  · exact Nat.mul_div_cancel _ (Nat.two_pow_pos _)

theorem convertPayload_trans (h' : target.Within third) (payload : Nat) :
    convertPayload target third (convertPayload source target payload) =
      convertPayload source third payload := by
  have hle := h.fracBits
  have hle' := h'.fracBits
  have hwidths : target.fracBits - source.fracBits + (third.fracBits - target.fracBits) =
      third.fracBits - source.fracBits := by omega
  rw [h.convertPayload_eq, h'.convertPayload_eq, convertPayload, if_pos (hle.trans hle'),
    Nat.mul_assoc, ← Nat.pow_add, hwidths]

end Within

theorem quietNaN_quiet (fmt : Format) (negative : Bool) (payload : Nat) :
    fmt.quietNaN negative (payload ||| fmt.quietBit) = fmt.quietNaN negative payload := by
  rw [quietNaN, quietNaN, Nat.or_assoc, Nat.or_self]

/-! ## §3 Two conversions -/

theorem isNegative_infinity (fmt : Format) (negative : Bool) :
    fmt.isNegative (fmt.infinity negative) = negative :=
  isNegative_signed (infinityMagnitude_lt fmt)

namespace Within

/-- Widening and narrowing again gives the encoding back, or the NaN made quiet. -/
theorem convert_convert (h : source.Within target) (hfrac : 0 < source.fracBits)
    (hexp : 0 < source.expBits) (ha : a < 2 ^ source.width) :
    convert target source (convert source target a) =
      if source.isNaN a then source.quiet a else a := by
  have hfrac' : 0 < target.fracBits := Nat.lt_of_lt_of_le hfrac h.fracBits
  have hexp' : 0 < target.expBits := Nat.lt_of_lt_of_le hexp h.expBits
  split
  · rename_i hnan
    have hpayload : convertPayload source target (source.fraction a) < 2 ^ target.fracBits :=
      convertPayload_lt (Nat.mod_lt _ (Nat.two_pow_pos _))
    rw [convert_nan hnan, convert_quietNaN hfrac' hpayload, ← h.convertPayload_quiet hfrac,
      h.convertPayload_convertPayload, quietNaN_quiet, quiet_eq_quietNaN hfrac hnan ha]
  · rename_i hnan
    rcases finite_or_infinite hnan with hfinite | hinfinite
    · obtain ⟨b, hb, hsame⟩ := h.exists_sameNumber hexp hfinite
      rw [hsame.convert_eq hb hfrac' hexp', hsame.symm.convert_eq ha hfrac hexp]
    · rw [convert_infinite hinfinite, convert_infinite (isInfinite_infinity target _),
        isNegative_infinity, infinity, ← infinityMagnitude, ← hinfinite.magnitude, signed_self ha]

/-- Widening in two steps is widening in one. -/
theorem convert_trans (h : source.Within target) (h' : target.Within third)
    (hfrac : 0 < source.fracBits) (hexp : 0 < source.expBits) (a : Nat) :
    convert target third (convert source target a) = convert source third a := by
  have hfrac' : 0 < target.fracBits := Nat.lt_of_lt_of_le hfrac h.fracBits
  have hexp' : 0 < target.expBits := Nat.lt_of_lt_of_le hexp h.expBits
  by_cases hnan : source.isNaN a
  · have hpayload : convertPayload source target (source.fraction a) < 2 ^ target.fracBits :=
      convertPayload_lt (Nat.mod_lt _ (Nat.two_pow_pos _))
    rw [convert_nan hnan, convert_nan hnan, convert_quietNaN hfrac' hpayload,
      h'.convertPayload_quiet hfrac', quietNaN_quiet, h.convertPayload_trans h']
  · rcases finite_or_infinite hnan with hfinite | hinfinite
    · obtain ⟨b, hb, hsame⟩ := h.exists_sameNumber hexp hfinite
      obtain ⟨c, hc, hsame'⟩ := h'.exists_sameNumber hexp' hsame.right
      have hfrac'' : 0 < third.fracBits := Nat.lt_of_lt_of_le hfrac' h'.fracBits
      have hexp'' : 0 < third.expBits := Nat.lt_of_lt_of_le hexp' h'.expBits
      rw [hsame.convert_eq hb hfrac' hexp', hsame'.convert_eq hc hfrac'' hexp'',
        (hsame.trans hsame').convert_eq hc hfrac'' hexp'']
    · rw [convert_infinite hinfinite, convert_infinite hinfinite,
        convert_infinite (isInfinite_infinity target _), isNegative_infinity]

end Within

end Format

open Format

/-- Widening loses nothing: narrowing again gives every encoding back, or a NaN made quiet, which
keeps its sign and its payload; and it is the same in one step and in two. -/
theorem widening_lossless :
    (∀ narrow ∈ [binary32, binary64, binary128], ∀ wide ∈ [binary32, binary64, binary128],
      narrow.Within wide → ∀ a < 2 ^ narrow.width,
        convert wide narrow (convert narrow wide a) =
          if narrow.isNaN a then narrow.quiet a else a) ∧
    ∀ narrow ∈ [binary32, binary64, binary128], ∀ middle ∈ [binary32, binary64, binary128],
      ∀ wide ∈ [binary32, binary64, binary128], narrow.Within middle → middle.Within wide →
        ∀ a, convert middle wide (convert narrow middle a) = convert narrow wide a := by
  constructor
  · intro narrow hnarrow wide _ hwithin a ha
    obtain ⟨hfrac, hexp, -⟩ := widths_of_mem hnarrow
    exact hwithin.convert_convert hfrac hexp ha
  · intro narrow hnarrow middle _ wide _ hmiddle hwide
    obtain ⟨hfrac, hexp, -⟩ := widths_of_mem hnarrow
    exact hmiddle.convert_trans hwide hfrac hexp

/-- The least number of single precision is no subnormal number of quadruple precision, and comes
back as it was. A negative signalling NaN comes back quiet. -/
theorem widening_lossless_quad :
    convert binary32 binary128 1 = 0x3F6A0000000000000000000000000000 ∧
      convert binary128 binary32 (convert binary32 binary128 1) = 1 ∧
      convert binary128 binary32 (convert binary32 binary128 0xFF800001) = 0xFFC00001 ∧
      convert binary64 binary128 (convert binary32 binary64 1) =
        0x3F6A0000000000000000000000000000 := by
  have hdirect : convert binary32 binary128 1 = 0x3F6A0000000000000000000000000000 := by
    decide +kernel
  have hwithin : binary32.Within binary128 := ⟨by decide, by decide⟩
  obtain ⟨hback, hsteps⟩ := widening_lossless
  have hquad := hback binary32 (by decide) binary128 (by decide) hwithin
  have hdouble := hsteps binary32 (by decide) binary64 (by decide) binary128 (by decide)
    ⟨by decide, by decide⟩ ⟨by decide, by decide⟩ 1
  exact ⟨hdirect, hquad 1 (by decide), hquad 0xFF800001 (by decide), hdouble.trans hdirect⟩

end MeteredWasm.SoftFloat
