import MeteredWasm.Proofs.SoftFloat.Conversion
import MeteredWasm.Proofs.SoftFloat.Checked.Encodings

/-!
# Rounding in machine words

Packing a significand shifts it to the left by less than the precision, or to the right by any
distance: from the width of a word on, nothing of it is left but the question whether it was above
one half. With every significand that is a word and every scale that an operation arrives at, the
machine computes what packing says.
-/

namespace MeteredWasm.SoftFloat.Checked

-- Powers of numbers are the core library's, as in the formats themselves.
attribute [local instance (high)] instPowNat

open Format

/-! ## §1 Shifts to the right -/

/-- Shift right; if a bit that is lost was set, the last bit that is kept is set. -/
def shiftRightJam (x shift : Nat) : Option Nat := do
  if shift = 0 then return x
  else if 128 ≤ shift then return if x = 0 then 0 else 1
  else
    let lost := x &&& (← mask shift)
    return (← shiftRight x shift) ||| if lost = 0 then 0 else 1

/-- The significand with its last bit for a remainder, moved up below the top bit of the word, or
down by one bit where no bit is free. -/
def parkRemainder (sig : Nat) (scale : Int) : Option (Nat × Int) := do
  if 128 ≤ bitWidth sig then
    return ((← shiftRightJam sig 1) ||| 1, ← scale? (scale + 1))
  else
    let shift ← count? (127 - bitWidth sig)
    return ((← shiftLeft sig shift) ||| 1, ← scale? (scale - shift))

/-- The bits of a significand above a place and those below it. -/
def split (sig place : Nat) : Option (Nat × Nat) := do
  -- a shift by the whole width of a word is none that the machine has
  if place = 128 then return (0, sig)
  else return (← shiftRight sig place, sig &&& (← mask place))

/-- Drop the last `shift` bits, rounding to nearest and ties to even. -/
def roundShift (sig shift : Nat) : Option Nat := do
  let (kept, rem) ← split sig shift
  let half ← shiftLeft 1 (← count? (shift - 1))
  if half < rem ∨ rem = half ∧ kept &&& 1 = 1 then addWord kept 1 else return kept

section Shifts

variable {sig shift : Nat} {scale : Int}

theorem or_one (n : Nat) : n ||| 1 = withLowBit n := by
  have hdiv : (n ||| 1) / 2 = n / 2 := by simp [Nat.or_div_two]
  have hmod : (n ||| 1) % 2 = 1 := by simp [Nat.or_mod_two_eq_one]
  rw [withLowBit]
  omega

theorem shiftRightJam_eq (hword : sig < 2 ^ (128 : Nat)) :
    shiftRightJam sig shift = some (SoftFloat.shiftRightJam sig shift) := by
  rw [shiftRightJam, SoftFloat.shiftRightJam]
  by_cases hzero : shift = 0
  · simp [hzero, Nat.mod_one]
  · rw [if_neg hzero]
    by_cases hlarge : 128 ≤ shift
    · -- the whole word is lost
      have hlt : sig < 2 ^ shift := hword.trans_le (Nat.pow_le_pow_right Nat.two_pos hlarge)
      rw [if_pos hlarge, Nat.mod_eq_of_lt hlt, Nat.div_eq_of_lt hlt]
      rfl
    · have hcount : shift < 128 := Nat.lt_of_not_le hlarge
      simp only [if_neg hlarge, mask_eq hcount, shiftRight_eq hcount, some_bind, Option.pure_def,
        Nat.and_two_pow_sub_one_eq_mod]
      split_ifs
      · rw [Nat.or_zero]
      · rw [or_one]

theorem parkRemainder_eq (hword : sig < 2 ^ (128 : Nat)) (hlow : -50000 ≤ scale)
    (hhigh : scale ≤ 50000) :
    parkRemainder sig scale = some (SoftFloat.parkRemainder sig scale) := by
  rw [parkRemainder, SoftFloat.parkRemainder]
  by_cases hfull : 128 ≤ bitWidth sig
  · simp (disch := omega) only [if_pos hfull, shiftRightJam_eq hword, scale?_eq, some_bind,
      Option.pure_def, or_one]
  · have hwidth : bitWidth sig ≤ 127 := by omega
    have hcount : count? (127 - (bitWidth sig : Int)) = some (127 - bitWidth sig) :=
      count?_sub (a := 127) hwidth (by omega)
    have hshift : shiftLeft sig (127 - bitWidth sig) = some (sig * 2 ^ (127 - bitWidth sig)) :=
      shiftLeft_eq (by omega) (mul_two_pow_lt (lt_two_pow_bitWidth sig) (by omega))
    simp (disch := omega) only [if_neg hfull, hcount, hshift, scale?_eq, some_bind,
      Option.pure_def, or_one]

/-- The significand with a remainder parked in it is a word. -/
theorem parkRemainder_lt (hword : sig < 2 ^ (128 : Nat)) :
    (SoftFloat.parkRemainder sig scale).1 < 2 ^ (128 : Nat) := by
  rw [SoftFloat.parkRemainder]
  split
  · rw [SoftFloat.shiftRightJam]
    simp only [withLowBit]
    split <;> omega
  · have hlt : sig * 2 ^ (127 - bitWidth sig) < 2 ^ (127 : Nat) :=
      mul_two_pow_lt (lt_two_pow_bitWidth sig) (by omega)
    simp only [withLowBit]
    omega

theorem parkRemainder_scale :
    scale - 127 ≤ (SoftFloat.parkRemainder sig scale).2 ∧
      (SoftFloat.parkRemainder sig scale).2 ≤ scale + 1 := by
  rw [SoftFloat.parkRemainder]
  split
  · dsimp only
    omega
  · dsimp only
    omega

theorem split_eq (hword : sig < 2 ^ (128 : Nat)) (hshift : shift ≤ 128) :
    split sig shift = some (sig / 2 ^ shift, sig % 2 ^ shift) := by
  rw [split]
  by_cases hall : shift = 128
  · rw [if_pos hall, hall, Nat.div_eq_of_lt hword, Nat.mod_eq_of_lt hword, Option.pure_def]
  · have hcount : shift < 128 := by omega
    simp only [if_neg hall, shiftRight_eq hcount, mask_eq hcount, some_bind, Option.pure_def,
      Nat.and_two_pow_sub_one_eq_mod]

theorem roundShift_eq (hword : sig < 2 ^ (128 : Nat)) (hpos : 0 < shift) (hshift : shift ≤ 128) :
    roundShift sig shift = some (SoftFloat.roundShift sig shift) := by
  have hcount : count? ((shift : Int) - 1) = some (shift - 1) :=
    count?_sub hpos (by omega)
  have hhalf : shiftLeft 1 (shift - 1) = some (2 ^ (shift - 1)) := shiftLeft_one (by omega)
  -- at least one bit is dropped, so that there is room to round up
  have hkept : sig / 2 ^ shift + 1 < 2 ^ (128 : Nat) := by
    have hle : sig / 2 ^ shift ≤ sig / 2 ^ 1 :=
      Nat.div_le_div_left (Nat.pow_le_pow_right Nat.two_pos hpos) (Nat.two_pow_pos 1)
    omega
  simp only [roundShift, split_eq hword hshift, hcount, hhalf, some_bind, addWord_eq hkept,
    Option.pure_def, Nat.and_one_is_mod, SoftFloat.roundShift]
  split_ifs <;> rfl

end Shifts

/-! ## §2 Packing -/

/-- The bits of a significand that are kept. From a shift that is wider than the word nothing comes
back, not even a carry. -/
def keep (sig : Nat) (shift : Int) : Option Nat := do
  if shift ≤ 0 then shiftLeft sig (← count? (← scale? (-shift)))
  else if 128 < shift then return 0
  else roundShift sig (← count? shift)

/-- A significand with a leading one under its exponent field, or an infinity if the field is too
small for the exponent. -/
def packNormal (fmt : Format) (negative : Bool) (mantissa : Nat) (biased : Int) : Option Nat := do
  let field ← count? biased
  if (← expMax fmt) ≤ field then infinity fmt negative
  else signed fmt negative ((← shiftLeft field fmt.fracBits) ||| mantissa &&& (← fracMask fmt))

/-- A carry out of a significand leaves a power of two, one exponent higher. -/
def carry (fmt : Format) (mantissa : Nat) (biased : Int) : Option (Nat × Int) := do
  if (← shiftRight mantissa (fmt.fracBits + 1)) ≠ 0 then
    return (← shiftRight mantissa 1, ← scale? (biased + 1))
  else return (mantissa, biased)

/-- How far the last bit that is kept is above that of the significand. -/
def roundingShift (fmt : Format) (scale : Int) (sig : Nat) : Option Int := do
  let precision ← scale? (fmt.fracBits + 1)
  let excess ← scale? (bitWidth sig - precision)
  return Max.max excess (← scale? ((← minScale fmt) - scale))

/-- The encoding nearest to `sig * 2 ^ scale`. -/
def roundExact (fmt : Format) (negative : Bool) (scale : Int) (sig : Nat) : Option Nat := do
  if sig = 0 then zero fmt negative
  else
    let shift ← roundingShift fmt scale sig
    let mantissa ← keep sig shift
    let scale ← scale? (scale + shift)
    if mantissa = 0 then zero fmt negative
    else if mantissa < (← shiftLeft 1 fmt.fracBits) then signed fmt negative mantissa
    else
      let biased ← scale? ((← scale? (scale + fmt.fracBits)) + (← bias fmt))
      let (mantissa, biased) ← carry fmt mantissa biased
      packNormal fmt negative mantissa biased

/-- The encoding nearest to `sig * 2 ^ scale`, or, with a remainder, to the numbers strictly
between it and `(sig + 1) * 2 ^ scale`. -/
def roundPack (fmt : Format) (negative : Bool) (scale : Int) (sig : Nat) (remainder : Bool) :
    Option Nat := do
  if remainder then
    let (sig, scale) ← parkRemainder sig scale
    roundExact fmt negative scale sig
  else roundExact fmt negative scale sig

section Packing

variable {fmt : Format} {sig : Nat} {scale : Int}

theorem keep_eq {shift : Int} (hword : sig < 2 ^ (128 : Nat)) (hleft : bitWidth sig - shift ≤ 128)
    (hlow : -128 < shift) :
    keep sig shift = some (if shift ≤ 0 then sig * 2 ^ (-shift).toNat
      else SoftFloat.roundShift sig shift.toNat) := by
  rw [keep]
  by_cases hle : shift ≤ 0
  · have hshift : shiftLeft sig (-shift).toNat = some (sig * 2 ^ (-shift).toNat) :=
      shiftLeft_eq (by omega) (mul_two_pow_lt (lt_two_pow_bitWidth sig) (by omega))
    simp (disch := omega) only [if_pos hle, scale?_eq, count?_eq, hshift, some_bind]
  · rw [if_neg hle, if_neg hle]
    by_cases hlarge : 128 < shift
    · -- the significand is less than one half of the last bit that is kept
      have hlt : sig < 2 ^ (shift.toNat - 1) :=
        hword.trans_le (Nat.pow_le_pow_right Nat.two_pos (by omega))
      have hlt' : sig < 2 ^ shift.toNat :=
        hlt.trans_le (Nat.pow_le_pow_right Nat.two_pos (by omega))
      rw [if_pos hlarge, SoftFloat.roundShift, Nat.div_eq_of_lt hlt', Nat.mod_eq_of_lt hlt',
        if_neg (by omega), Option.pure_def]
    · have hcount : count? shift = some shift.toNat := count?_eq (by omega) (by omega)
      rw [if_neg hlarge, hcount, some_bind, roundShift_eq hword (by omega) (by omega)]

theorem packNormal_eq (hfmt : fmt ∈ [binary32, binary64, binary128]) (negative : Bool)
    (mantissa : Nat) {biased : Int} (hlow : 0 ≤ biased) (hhigh : biased < 2 ^ (31 : Nat)) :
    packNormal fmt negative mantissa biased = some (
      if (fmt.expMax : Int) ≤ biased then fmt.infinity negative
      else fmt.signed negative
        (biased.toNat * 2 ^ fmt.fracBits + mantissa % 2 ^ fmt.fracBits)) := by
  obtain ⟨-, hmax, -, hmask, -⟩ := constants_eq hfmt
  obtain ⟨hfrac, hwidth, -⟩ := bounds_of_mem hfmt
  have hcount : count? biased = some biased.toNat := count?_eq hlow (by omega)
  simp only [packNormal, hcount, hmax, some_bind]
  by_cases hlarge : (fmt.expMax : Int) ≤ biased
  · rw [if_pos (by omega), if_pos hlarge, infinity_eq hfmt]
  · have hfield : biased.toNat + 1 ≤ fmt.expMax := by omega
    have hfraction : mantissa % 2 ^ fmt.fracBits < 2 ^ fmt.fracBits :=
      Nat.mod_lt _ (Nat.two_pow_pos _)
    -- the exponent field and the fraction stay below the sign
    have hlt : biased.toNat * 2 ^ fmt.fracBits + mantissa % 2 ^ fmt.fracBits < fmt.signBit := by
      have hle : (biased.toNat + 1) * 2 ^ fmt.fracBits ≤ fmt.infinityMagnitude :=
        Nat.mul_le_mul_right _ hfield
      have htop := infinityMagnitude_lt fmt
      rw [Nat.succ_mul] at hle
      omega
    have hword : fmt.signBit < 2 ^ (128 : Nat) := Nat.pow_lt_pow_right Nat.one_lt_two hwidth
    have hshift : shiftLeft biased.toNat fmt.fracBits =
        some (biased.toNat * 2 ^ fmt.fracBits) := shiftLeft_eq (by omega) (by omega)
    rw [if_neg (by omega), if_neg hlarge]
    simp only [hshift, hmask, some_bind, Nat.and_two_pow_sub_one_eq_mod, mul_or hfraction,
      signed_eq hfmt negative hlt]

theorem carry_eq (hfrac : fmt.fracBits ≤ 112) (mantissa : Nat) {biased : Int} (hlow : 0 ≤ biased)
    (hhigh : biased < 2 ^ (30 : Nat)) :
    carry fmt mantissa biased = some (
      if 2 ^ (fmt.fracBits + 1) ≤ mantissa then (mantissa / 2, biased + 1)
      else (mantissa, biased)) := by
  have hshift : shiftRight mantissa (fmt.fracBits + 1) =
      some (mantissa / 2 ^ (fmt.fracBits + 1)) := shiftRight_eq (by omega)
  have hhalf : shiftRight mantissa 1 = some (mantissa / 2) := shiftRight_eq (by omega)
  have hcarry : mantissa / 2 ^ (fmt.fracBits + 1) ≠ 0 ↔ 2 ^ (fmt.fracBits + 1) ≤ mantissa := by
    rw [Nat.div_ne_zero_iff]
    exact and_iff_right (Nat.two_pow_pos _).ne'
  simp (disch := omega) only [carry, hshift, hhalf, scale?_eq, some_bind, Option.pure_def, hcarry]
  split_ifs <;> rfl

/-- A significand is shifted to the left by what it lacks in precision at most. -/
theorem roundingShift_bounds (hfmt : fmt ∈ [binary32, binary64, binary128])
    (hword : sig < 2 ^ (128 : Nat)) (hlow : -50000 ≤ scale) :
    (bitWidth sig : Int) - (fmt.fracBits + 1) ≤ SoftFloat.roundingShift fmt scale sig ∧
      SoftFloat.roundingShift fmt scale sig ≤ 60000 := by
  obtain ⟨hfrac, -, hsmall, -⟩ := bounds_of_mem hfmt
  have hbits : bitWidth sig ≤ 128 := bitWidth_le_iff.mpr hword
  rw [SoftFloat.roundingShift, Format.minScale]
  omega

theorem roundingShift_eq (hfmt : fmt ∈ [binary32, binary64, binary128])
    (hword : sig < 2 ^ (128 : Nat)) (hlow : -50000 ≤ scale) (hhigh : scale ≤ 50000) :
    roundingShift fmt scale sig = some (SoftFloat.roundingShift fmt scale sig) := by
  obtain ⟨-, -, -, -, -, hleast, -⟩ := constants_eq hfmt
  obtain ⟨hfrac, -, hsmall, -⟩ := bounds_of_mem hfmt
  have hminScale : fmt.minScale = 1 - (fmt.bias : Int) - fmt.fracBits := rfl
  have hbits : bitWidth sig ≤ 128 := bitWidth_le_iff.mpr hword
  simp (disch := omega) only [roundingShift, scale?_eq, hleast, some_bind, Option.pure_def,
    SoftFloat.roundingShift]

theorem roundExact_eq (hfmt : fmt ∈ [binary32, binary64, binary128]) (negative : Bool)
    (hword : sig < 2 ^ (128 : Nat)) (hlow : -50000 ≤ scale) (hhigh : scale ≤ 50000) :
    roundExact fmt negative scale sig = some (SoftFloat.roundExact fmt negative scale sig) := by
  obtain ⟨hbias, -⟩ := constants_eq hfmt
  obtain ⟨hfrac, -, hsmall, -⟩ := bounds_of_mem hfmt
  obtain ⟨hshiftLow, hshiftHigh⟩ := roundingShift_bounds hfmt hword hlow
  rw [roundExact, SoftFloat.roundExact]
  by_cases hzero : sig = 0
  · rw [if_pos hzero, if_pos hzero, zero_eq hfmt]
  · have hbits : bitWidth sig ≤ 128 := bitWidth_le_iff.mpr hword
    have hbitsPos : 0 < bitWidth sig := bitWidth_pos.mpr hzero
    have hkeep := keep_eq hword (by omega)
      (show -128 < SoftFloat.roundingShift fmt scale sig by omega)
    have hgrid := minScale_add_roundingOffset fmt scale sig
    rw [Format.minScale] at hgrid
    rw [← keptSignificand] at hkeep
    rw [if_neg hzero, if_neg hzero, roundingShift_eq hfmt hword hlow hhigh, some_bind, hkeep]
    dsimp only
    rw [← SoftFloat.roundingShift, ← keptSignificand]
    generalize keptSignificand fmt scale sig = kept
    generalize hplaced : scale + SoftFloat.roundingShift fmt scale sig = place at hgrid ⊢
    have hhidden : shiftLeft 1 fmt.fracBits = some (2 ^ fmt.fracBits) := shiftLeft_one (by omega)
    -- the grid is the finest one or coarser, so that the exponent field is not negative
    have hcarry := @carry_eq fmt hfrac kept (place + fmt.fracBits + fmt.bias)
      (by omega) (by omega)
    simp (disch := omega) only [scale?_eq, hhidden, hbias, hcarry, some_bind]
    by_cases hnone : kept = 0
    · rw [if_pos hnone, if_pos hnone, zero_eq hfmt]
    · rw [if_neg hnone, if_neg hnone]
      by_cases hsubnormal : kept < 2 ^ fmt.fracBits
      · have hlt : kept < fmt.signBit :=
          hsubnormal.trans_le (Nat.pow_le_pow_right Nat.two_pos (Nat.le_add_left _ _))
        rw [if_pos hsubnormal, if_pos hsubnormal, signed_eq hfmt negative hlt]
      · rw [if_neg hsubnormal, if_neg hsubnormal]
        split
        · exact packNormal_eq hfmt negative _ (by dsimp only; omega) (by dsimp only; omega)
        · exact packNormal_eq hfmt negative _ (by dsimp only; omega) (by dsimp only; omega)

theorem roundPack_eq (hfmt : fmt ∈ [binary32, binary64, binary128]) (negative remainder : Bool)
    (hword : sig < 2 ^ (128 : Nat)) (hlow : -40000 ≤ scale) (hhigh : scale ≤ 40000) :
    roundPack fmt negative scale sig remainder =
      some (SoftFloat.roundPack fmt negative scale sig remainder) := by
  cases remainder with
  | false =>
    rw [roundPack, SoftFloat.roundPack, if_neg Bool.false_ne_true, if_neg Bool.false_ne_true]
    exact roundExact_eq hfmt negative hword (by omega) (by omega)
  | true =>
    have hpark : parkRemainder sig scale = some (SoftFloat.parkRemainder sig scale) :=
      parkRemainder_eq hword (by omega) (by omega)
    have hlt := @parkRemainder_lt sig scale hword
    obtain ⟨hscaleLow, hscaleHigh⟩ := @parkRemainder_scale sig scale
    rw [roundPack, SoftFloat.roundPack, if_pos rfl, if_pos rfl, hpark, some_bind]
    generalize SoftFloat.parkRemainder sig scale = parked at *
    exact roundExact_eq hfmt negative hlt (by omega) (by omega)

/-- Packing rounds once. The machine computes, for every significand that is a word, the one encoding
that is the number rounded to nearest; with a remainder it computes the one encoding that all
numbers up to the next significand are rounded to. -/
theorem roundPack_rounds_once (hfmt : fmt ∈ [binary32, binary64, binary128]) (negative : Bool)
    (hword : sig < 2 ^ (128 : Nat)) (hlow : -40000 ≤ scale) (hhigh : scale ≤ 40000) :
    (∀ remainder, roundPack fmt negative scale sig remainder =
        some (SoftFloat.roundPack fmt negative scale sig remainder)) ∧
      (∀ r, fmt.RoundsSigned negative (sign negative * (sig * 2 ^ scale)) r ↔
        r = SoftFloat.roundPack fmt negative scale sig false) ∧
      (fmt.fracBits + 2 ≤ bitWidth sig → ∀ x, Between sig scale x →
        ∀ r, fmt.Rounds (sign negative * x) r ↔
          r = SoftFloat.roundPack fmt negative scale sig true) := by
  obtain ⟨hfrac, hexp, hprecision⟩ := widths_of_mem hfmt
  refine ⟨fun remainder => roundPack_eq hfmt negative remainder hword hlow hhigh, ?_, ?_⟩
  · intro r
    have hrounds := roundsSigned_roundPack hfrac hexp negative scale sig
    constructor
    · intro hr
      exact hr.unique hrounds hfrac
    · rintro rfl
      exact hrounds
  · intro hwide x hx r
    have hrounds := rounds_roundPack_remainder hfrac hexp negative hprecision hwide hx
    constructor
    · intro hr
      exact hr.unique hrounds hfrac
    · rintro rfl
      exact hrounds

/-- One half of the least number is rounded to zero, and what is above it to the least number. -/
theorem roundPack_half_unit :
    roundPack binary32 true (-174) (2 ^ (24 : Nat)) true = some 0x80000001 ∧
      binary32.RoundsSigned true (sign true * ((2 ^ (24 : Nat) : Nat) * 2 ^ (-174 : Int)))
        0x80000000 ∧
      ∀ x, Between (2 ^ (24 : Nat)) (-174) x → binary32.Rounds (sign true * x) 0x80000001 := by
  have hexact : SoftFloat.roundPack binary32 true (-174) (2 ^ (24 : Nat)) false = 0x80000000 := by
    decide +kernel
  have habove : SoftFloat.roundPack binary32 true (-174) (2 ^ (24 : Nat)) true = 0x80000001 := by
    decide +kernel
  obtain ⟨hmachine, hrounds, hbetween⟩ := @roundPack_rounds_once binary32 (2 ^ (24 : Nat)) (-174)
    (by decide) true (by decide) (by decide) (by decide)
  refine ⟨?_, ?_, ?_⟩
  · rw [hmachine, habove]
  · rw [hrounds, hexact]
  · intro x hx
    rw [hbetween (by decide +kernel) x hx, habove]

end Packing

end MeteredWasm.SoftFloat.Checked
