import MeteredWasm.Proofs.SoftFloat.Truncation
import MeteredWasm.Proofs.SoftFloat.Checked.Rounding

/-!
# Comparisons and conversions in machine words

Magnitudes are signed words as well, so comparing them negates one without an overflow. Rounding to an
integral value adds into the bits of an encoding, where the exponent has room for a carry, and an
integer that is truncated from a number is shifted to the left only if all its bits fit.
-/

namespace MeteredWasm.SoftFloat.Checked

-- Powers of numbers are the core library's, as in the formats themselves.
attribute [local instance (high)] instPowNat

open Format

/-! ## §1 Signed words -/

/-- A word as a signed one of the same value. -/
def signed? (a : Nat) : Option Int :=
  if a < 2 ^ (127 : Nat) then some a else none

/-- The negative of a signed word, where there is one. -/
def negSigned (i : Int) : Option Int :=
  if i = -2 ^ (127 : Nat) then none else some (-i)

/-- A word read as a signed one, in two's complement. -/
def twosComplement (a : Nat) : Int := Int.bmod a (2 ^ (128 : Nat))

/-- The negative of a signed word in two's complement; the least word is its own negative. -/
def wrappingNeg (i : Int) : Int := Int.bmod (-i) (2 ^ (128 : Nat))

theorem wrappingNeg_twosComplement {a : Nat} (h : a ≤ 2 ^ (127 : Nat)) :
    wrappingNeg (twosComplement a) = -(a : Int) := by
  rcases Nat.lt_or_eq_of_le h with hlt | rfl
  · have hsame : twosComplement a = a := Int.bmod_eq_of_le (by omega) (by omega)
    rw [hsame]
    exact Int.bmod_eq_of_le (by omega) (by omega)
  · decide

/-! ## §2 Comparison -/

/-- An integer that orders the encodings of numbers. -/
def orderKey (fmt : Format) (bits : Nat) : Option Int := do
  let key ← signed? (← magnitude fmt bits)
  if ← isNegative fmt bits then negSigned key else return key

/-- The order of two encodings, if neither is a NaN. -/
def compare (fmt : Format) (a b : Nat) : Option (Option Ordering) := do
  if (← isNaN fmt a) || (← isNaN fmt b) then return none
  else return some (Ord.compare (← orderKey fmt a) (← orderKey fmt b))

section Comparison

variable {fmt : Format} (hfmt : fmt ∈ [binary32, binary64, binary128]) {a b : Nat}
  (ha : a < 2 ^ fmt.width) (hb : b < 2 ^ fmt.width)

include hfmt ha

theorem orderKey_eq : orderKey fmt a = some (SoftFloat.orderKey fmt a) := by
  obtain ⟨-, hwidth, -⟩ := bounds_of_mem hfmt
  have hlt : fmt.magnitude a < 2 ^ (127 : Nat) :=
    (magnitude_lt fmt a).trans_le (Nat.pow_le_pow_right Nat.two_pos (by omega))
  have hkey : signed? (fmt.magnitude a) = some (fmt.magnitude a : Int) := if_pos hlt
  have hneg : negSigned (fmt.magnitude a) = some (-(fmt.magnitude a : Int)) := if_neg (by omega)
  simp only [orderKey, magnitude_eq hfmt a ha, hkey, isNegative_eq hfmt, hneg, some_bind,
    Option.pure_def, SoftFloat.orderKey]
  split_ifs <;> rfl

include hb

theorem compare_eq : compare fmt a b = some (SoftFloat.compare fmt a b) := by
  simp only [compare, isNaN_eq hfmt, orderKey_eq hfmt ha, orderKey_eq hfmt hb, some_bind,
    Option.pure_def, SoftFloat.compare]
  split_ifs <;> rfl

end Comparison

/-! ## §3 Rounding to an integral value -/

/-- An encoding with the bits below the point, which has `low` of them, rounded away. -/
def roundFraction (a low : Nat) (negative : Bool) (d : Direction) : Option Nat := do
  let mask ← mask low
  let fraction := a &&& mask
  if fraction = 0 then return a
  else
    let truncated := a &&& complement mask
    let half ← shiftLeft 1 (← count? (low - 1))
    let odd := (← shiftRight a low) &&& 1 == 1
    let nearest := decide (half < fraction) || (fraction == half && odd)
    if d.away negative nearest then addWord truncated (← shiftLeft 1 low) else return truncated

/-- The integral value next to a number in the given direction. -/
def roundToIntegral (fmt : Format) (a : Nat) (d : Direction) : Option Nat := do
  match (← unpack fmt a) with
  | (negative, .finite _ _) =>
    let exp ← scale? (← exponent fmt a)
    let bias ← bias fmt
    if (← scale? (bias + fmt.fracBits)) ≤ exp then return a
    else if exp < bias then
      let nearest := exp == (← scale? (bias - 1)) && (← fraction fmt a) != 0
      if d.away negative nearest then one fmt negative else zero fmt negative
    else
      let low ← count? (← scale? ((← scale? (bias + fmt.fracBits)) - exp))
      roundFraction a low negative d
  | _ => return a

/-- One more bit behind the point of a number with such bits does not carry out of the word. -/
theorem add_two_pow_lt {fmt : Format} (hfmt : fmt ∈ [binary32, binary64, binary128]) {a low : Nat}
    (ha : a < 2 ^ fmt.width) (hexp : fmt.exponent a < fmt.bias + fmt.fracBits)
    (hlow : low ≤ fmt.fracBits) : a + 2 ^ low < 2 ^ (128 : Nat) := by
  obtain ⟨-, hwidth, -⟩ := bounds_of_mem hfmt
  obtain ⟨-, -, htop⟩ := bias_of_mem hfmt
  rw [Format.exponent_eq] at hexp
  have hplace : a ≤ fmt.signBit + fmt.magnitude a := by
    have hself := signed_self ha
    rw [Format.signed] at hself
    split at hself <;> omega
  have hmagnitude := add_lt_infinityMagnitude hlow
    (show fmt.magnitude a / 2 ^ fmt.fracBits + 2 ≤ fmt.expMax by omega)
  have hinfinity := infinityMagnitude_lt fmt
  have hsign : fmt.signBit ≤ 2 ^ (127 : Nat) := Nat.pow_le_pow_right Nat.two_pos (by omega)
  omega

theorem roundFraction_eq {a low : Nat} (hpos : 0 < low) (hlow : low < 128)
    (hroom : a + 2 ^ low < 2 ^ (128 : Nat)) (negative : Bool) (d : Direction) :
    roundFraction a low negative d = some (
      if a % 2 ^ low = 0 then a
      else
        if d.away negative (decide (2 ^ (low - 1) < a % 2 ^ low) ||
            (a % 2 ^ low == 2 ^ (low - 1) && a / 2 ^ low % 2 == 1)) then
          a - a % 2 ^ low + 2 ^ low
        else a - a % 2 ^ low) := by
  have hword : a < 2 ^ (128 : Nat) := (Nat.le_add_right _ _).trans_lt hroom
  have hcount : count? ((low : Int) - 1) = some (low - 1) := count?_sub hpos (by omega)
  have hhalf : shiftLeft 1 (low - 1) = some (2 ^ (low - 1)) := shiftLeft_one (by omega)
  have hsum : addWord (a - a % 2 ^ low) (2 ^ low) = some (a - a % 2 ^ low + 2 ^ low) :=
    addWord_eq (by omega)
  simp only [roundFraction, mask_eq hlow, hcount, hhalf, shiftRight_eq hlow, shiftLeft_one hlow,
    some_bind, Nat.and_two_pow_sub_one_eq_mod, and_complement hword,
    Nat.and_one_is_mod, hsum, Option.pure_def]
  split_ifs <;> rfl

theorem roundToIntegral_eq {fmt : Format} (hfmt : fmt ∈ [binary32, binary64, binary128]) {a : Nat}
    (ha : a < 2 ^ fmt.width) (d : Direction) :
    roundToIntegral fmt a d = some (SoftFloat.roundToIntegral fmt a d) := by
  obtain ⟨hbias, -⟩ := constants_eq hfmt
  obtain ⟨hfrac, -, hsmall, -⟩ := bounds_of_mem hfmt
  have hlt := exponent_lt hfmt a
  rw [roundToIntegral, SoftFloat.roundToIntegral, unpack_eq hfmt, some_bind]
  rcases fmt.unpack a with ⟨negative, _ | _ | _ | ⟨sig, scale⟩⟩
  case finite =>
    simp (disch := omega) only [exponent_eq hfmt, fraction_eq hfmt, scale?_eq, hbias, some_bind,
      one_eq hfmt, zero_eq hfmt, Option.pure_def]
    by_cases hinteger : fmt.bias + fmt.fracBits ≤ fmt.exponent a
    · rw [if_pos hinteger, if_pos (by omega)]
    · rw [if_neg hinteger, if_neg (by omega)]
      by_cases hless : fmt.exponent a < fmt.bias
      · have hhalf : ((fmt.exponent a : Int) == (fmt.bias : Int) - 1) =
            (fmt.exponent a + 1 == fmt.bias) := by
          rw [Bool.eq_iff_iff, beq_iff_eq, beq_iff_eq]
          omega
        rw [if_pos hless, if_pos (by omega), hhalf]
        split_ifs <;> rfl
      · rw [if_neg hless, if_neg (by omega)]
        have hlow : count? ((fmt.bias : Int) + fmt.fracBits - fmt.exponent a) =
            some (fmt.bias + fmt.fracBits - fmt.exponent a) :=
          count?_sub (a := fmt.bias + fmt.fracBits) (by omega) (by omega)
        have hroom : a + 2 ^ (fmt.bias + fmt.fracBits - fmt.exponent a) < 2 ^ (128 : Nat) :=
          add_two_pow_lt hfmt ha (by omega) (by omega)
        rw [hlow, some_bind, roundFraction_eq (by omega) (by omega) hroom]
  all_goals rfl

/-! ## §4 Conversions -/

/-- The payload of a NaN in another format, with its high bits in the same places. -/
def payload (source target : Format) (a : Nat) : Option Nat := do
  let fraction ← fraction source a
  if source.fracBits ≤ target.fracBits then
    shiftLeft fraction (← count? (target.fracBits - source.fracBits))
  else shiftRight fraction (← count? (source.fracBits - target.fracBits))

/-- The same number in another format. -/
def convert (source target : Format) (a : Nat) : Option Nat := do
  match (← unpack source a) with
  | (negative, .nan) =>
    let payload ← payload source target a
    signed target negative ((← topExponent target) ||| payload ||| (← quietBit target))
  | (negative, .inf) => infinity target negative
  | (negative, .zero) => zero target negative
  | (negative, .finite sig scale) => roundPack target negative scale sig false

/-- The encoding nearest to a signed magnitude. -/
def ofSignedNat (fmt : Format) (negative : Bool) (magnitude : Nat) : Option Nat :=
  roundPack fmt negative 0 magnitude false

/-- The sign and the truncated magnitude of a number, when the magnitude is a word. -/
def truncate (fmt : Format) (a : Nat) : Option (Option (Bool × Nat)) := do
  match (← unpack fmt a) with
  | (_, .nan) | (_, .inf) => return none
  | (negative, .zero) => return some (negative, 0)
  | (negative, .finite sig scale) =>
    if 0 ≤ scale then
      if 128 < (← count? (bitWidth sig + scale)) then return none
      else return some (negative, ← shiftLeft sig (← count? scale))
    else
      let shift ← count? (-scale)
      if 128 ≤ shift then return some (negative, 0)
      else return some (negative, ← shiftRight sig shift)

/-- The truncated number, when it fits a signed integer of the given width. -/
def truncateSigned (fmt : Format) (a width : Nat) : Option (Option Int) := do
  match (← truncate fmt a) with
  | none => return none
  | some (negative, magnitude) =>
    let limit ← shiftLeft 1 (← count? (width - 1))
    if negative then
      -- the least number of the width has no positive counterpart
      if magnitude ≤ limit then return some (wrappingNeg (twosComplement magnitude))
      else return none
    else if magnitude < limit then return some (← signed? magnitude)
    else return none

/-- The truncated number, when it fits an unsigned integer of the given width. -/
def truncateUnsigned (fmt : Format) (a width : Nat) : Option (Option Nat) := do
  match (← truncate fmt a) with
  | none => return none
  | some (true, magnitude) => return if magnitude = 0 then some 0 else none
  | some (false, magnitude) =>
    if width < 128 then
      if (← shiftRight magnitude width) ≠ 0 then return none else return some magnitude
    else return some magnitude

section Conversions

variable {fmt : Format} (hfmt : fmt ∈ [binary32, binary64, binary128])

include hfmt

theorem payload_eq {target : Format} (htarget : target ∈ [binary32, binary64, binary128])
    (a : Nat) : payload fmt target a = some (convertPayload fmt target (fmt.fraction a)) := by
  obtain ⟨hfrac, -⟩ := bounds_of_mem hfmt
  obtain ⟨hfrac', -⟩ := bounds_of_mem htarget
  have hlt : fmt.fraction a < 2 ^ fmt.fracBits := Nat.mod_lt _ (Nat.two_pow_pos _)
  simp only [payload, fraction_eq hfmt, some_bind, convertPayload]
  by_cases hwider : fmt.fracBits ≤ target.fracBits
  · have hcount : count? ((target.fracBits : Int) - fmt.fracBits) =
        some (target.fracBits - fmt.fracBits) := count?_sub hwider (by omega)
    rw [if_pos hwider, if_pos hwider, hcount, some_bind,
      shiftLeft_eq (by omega) (mul_two_pow_lt hlt (by omega))]
  · have hcount : count? ((fmt.fracBits : Int) - target.fracBits) =
        some (fmt.fracBits - target.fracBits) := count?_sub (by omega) (by omega)
    rw [if_neg hwider, if_neg hwider, hcount, some_bind, shiftRight_eq (by omega)]

theorem convert_eq {target : Format} (htarget : target ∈ [binary32, binary64, binary128])
    (a : Nat) : convert fmt target a = some (SoftFloat.convert fmt target a) := by
  obtain ⟨-, -, -, -, hquiet, -, htop⟩ := constants_eq htarget
  obtain ⟨hpos, -⟩ := widths_of_mem htarget
  rw [convert, SoftFloat.convert, unpack_eq hfmt, some_bind]
  rcases ha : fmt.unpack a with ⟨negative, _ | _ | _ | ⟨sig, scale⟩⟩
  case nan =>
    have hlt : convertPayload fmt target (fmt.fraction a) < 2 ^ target.fracBits :=
      convertPayload_lt (Nat.mod_lt _ (Nat.two_pow_pos _))
    simp only [payload_eq hfmt htarget, htop, hquiet, some_bind]
    rw [← convertPayload]
    generalize convertPayload fmt target (fmt.fraction a) = kept at *
    have hor : kept ||| target.quietBit < 2 ^ target.fracBits :=
      Nat.or_lt_two_pow hlt (quietBit_lt hpos)
    have hmagnitude := infinityMagnitude_add_lt hor
    rw [infinityMagnitude] at hmagnitude ⊢
    rw [Nat.or_assoc, mul_or hor, signed_eq htarget negative hmagnitude]
  case inf => exact infinity_eq htarget negative
  case zero => exact zero_eq htarget negative
  case finite =>
    obtain ⟨-, hlt, hlow, hhigh⟩ := isOperand_of_unpack hfmt ha
    have hprecision := two_pow_precision_le hfmt
    exact roundPack_eq htarget negative false (by omega) (by omega) (by omega)

theorem ofSignedNat_eq (negative : Bool) {magnitude : Nat} (h : magnitude < 2 ^ (128 : Nat)) :
    ofSignedNat fmt negative magnitude = some (SoftFloat.ofSignedNat fmt negative magnitude) :=
  roundPack_eq hfmt negative false h (by omega) (by omega)

theorem truncate_eq (a : Nat) : truncate fmt a = some (SoftFloat.truncate fmt a) := by
  rw [truncate, SoftFloat.truncate, unpack_eq hfmt, some_bind]
  rcases ha : fmt.unpack a with ⟨negative, _ | _ | _ | ⟨sig, scale⟩⟩
  case finite =>
    obtain ⟨hne, hlt, hlow, hhigh⟩ := isOperand_of_unpack hfmt ha
    obtain ⟨hfrac, -⟩ := bounds_of_mem hfmt
    have hbits := bitWidth_pos.mpr hne
    have hwidth : bitWidth sig ≤ fmt.fracBits + 1 := bitWidth_le_iff.mpr hlt
    dsimp only
    by_cases hinteger : 0 ≤ scale
    · have htotal : count? ((bitWidth sig : Int) + scale) = some (bitWidth sig + scale.toNat) := by
        rw [count?_eq (by omega) (by omega)]
        congr 1
        omega
      have hcount : count? scale = some scale.toNat := count?_eq hinteger (by omega)
      rw [if_pos hinteger, if_pos hinteger, htotal, some_bind]
      by_cases hlarge : 128 < bitWidth sig + scale.toNat
      · rw [if_pos hlarge, if_pos hlarge, Option.pure_def]
      · have hshift : shiftLeft sig scale.toNat = some (sig * 2 ^ scale.toNat) :=
          shiftLeft_eq (by omega) (mul_two_pow_lt (lt_two_pow_bitWidth sig) (by omega))
        rw [if_neg hlarge, if_neg hlarge, hcount, some_bind, hshift, some_bind, Option.pure_def]
    · have hcount : count? (-scale) = some (-scale).toNat := count?_eq (by omega) (by omega)
      rw [if_neg hinteger, if_neg hinteger, hcount, some_bind]
      by_cases hlarge : 128 ≤ (-scale).toNat
      · have hnone : sig < 2 ^ (-scale).toNat :=
          hlt.trans_le (Nat.pow_le_pow_right Nat.two_pos (by omega))
        rw [if_pos hlarge, Nat.div_eq_of_lt hnone, Option.pure_def]
      · rw [if_neg hlarge, shiftRight_eq (by omega), some_bind, Option.pure_def]
  all_goals rfl

/-- What is left of a number without its fraction is a word. -/
theorem truncate_lt {a magnitude : Nat} {negative : Bool}
    (h : SoftFloat.truncate fmt a = some (negative, magnitude)) :
    magnitude < 2 ^ (128 : Nat) := by
  rw [SoftFloat.truncate] at h
  rcases ha : fmt.unpack a with ⟨_, _ | _ | _ | ⟨sig, scale⟩⟩
  case finite =>
    obtain ⟨-, hlt, -⟩ := isOperand_of_unpack hfmt ha
    have hprecision := two_pow_precision_le hfmt
    rw [ha] at h
    dsimp only at h
    split_ifs at h with hinteger hlarge
    · obtain ⟨-, rfl⟩ : _ = negative ∧ sig * 2 ^ scale.toNat = magnitude := by simpa using h
      exact mul_two_pow_lt (lt_two_pow_bitWidth sig) (by omega)
    · obtain ⟨-, rfl⟩ : _ = negative ∧ sig / 2 ^ (-scale).toNat = magnitude := by simpa using h
      have hle : sig / 2 ^ (-scale).toNat ≤ sig := Nat.div_le_self ..
      omega
  case zero =>
    rw [ha] at h
    obtain ⟨-, rfl⟩ : _ = negative ∧ 0 = magnitude := by simpa using h
    exact Nat.two_pow_pos _
  all_goals simp [ha] at h

theorem truncateSigned_eq (a : Nat) {width : Nat} (hpos : 0 < width) (hwidth : width ≤ 128) :
    truncateSigned fmt a width = some (SoftFloat.truncateSigned fmt a width) := by
  have hcount : count? ((width : Int) - 1) = some (width - 1) := count?_sub hpos (by omega)
  have hlimit : shiftLeft 1 (width - 1) = some (2 ^ (width - 1)) := shiftLeft_one (by omega)
  have hle : 2 ^ (width - 1) ≤ 2 ^ (127 : Nat) := Nat.pow_le_pow_right Nat.two_pos (by omega)
  rw [truncateSigned, SoftFloat.truncateSigned, truncate_eq hfmt, some_bind]
  rcases SoftFloat.truncate fmt a with _ | ⟨_ | _, magnitude⟩
  · rfl
  · simp only [hcount, hlimit, some_bind]
    by_cases hfits : magnitude < 2 ^ (width - 1)
    · have hsame : signed? magnitude = some (magnitude : Int) := if_pos (hfits.trans_le hle)
      rw [if_neg Bool.false_ne_true, if_pos hfits, if_pos hfits, hsame, some_bind, Option.pure_def]
    · rw [if_neg Bool.false_ne_true, if_neg hfits, if_neg hfits, Option.pure_def]
  · simp only [hcount, hlimit, some_bind]
    by_cases hfits : magnitude ≤ 2 ^ (width - 1)
    · rw [if_pos trivial, if_pos hfits, if_pos hfits, Option.pure_def,
        wrappingNeg_twosComplement (hfits.trans hle)]
    · rw [if_pos trivial, if_neg hfits, if_neg hfits, Option.pure_def]

theorem truncateUnsigned_eq (a : Nat) {width : Nat} (hwidth : width ≤ 128) :
    truncateUnsigned fmt a width = some (SoftFloat.truncateUnsigned fmt a width) := by
  rw [truncateUnsigned, SoftFloat.truncateUnsigned, truncate_eq hfmt, some_bind]
  rcases htruncate : SoftFloat.truncate fmt a with _ | ⟨_ | _, magnitude⟩
  · rfl
  · have hword := truncate_lt hfmt htruncate
    dsimp only
    by_cases hnarrow : width < 128
    · have hlow : magnitude / 2 ^ width ≠ 0 ↔ ¬magnitude < 2 ^ width := by
        rw [Nat.div_ne_zero_iff, Nat.not_lt]
        exact and_iff_right (Nat.two_pow_pos _).ne'
      simp only [if_pos hnarrow, shiftRight_eq hnarrow, some_bind, hlow, Option.pure_def]
      split_ifs <;> rfl
    · obtain rfl : width = 128 := by omega
      rw [if_neg hnarrow, if_pos hword, Option.pure_def]
  · rfl

end Conversions

end MeteredWasm.SoftFloat.Checked
