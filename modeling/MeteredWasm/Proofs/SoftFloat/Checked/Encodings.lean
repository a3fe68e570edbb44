import Mathlib.Data.Nat.Bitwise
import MeteredWasm.Proofs.SoftFloat.IntegralValues
import MeteredWasm.Proofs.SoftFloat.Checked.Words

/-!
# Encodings in machine words

A machine reads the fields of an encoding with shifts and masks, and builds encodings from fields
that do not overlap. In all three formats this is what division, remainder and sum say, and none of
the words and scales on the way is too large.
-/

namespace MeteredWasm.SoftFloat.Checked

-- Powers of numbers are the core library's, as in the formats themselves.
attribute [local instance (high)] instPowNat

open Format (infinityMagnitude)

variable (fmt : Format)

/-! ## §1 Constants of a format -/

/-- What is added to an exponent before it is stored. -/
def bias : Option Int := do
  scale? ((← scale? (2 ^ (fmt.expBits - 1))) - 1)

/-- The exponent field of infinities and NaNs. -/
def expMax : Option Nat := mask fmt.expBits

/-- The weight of the sign. -/
def signBit : Option Nat := shiftLeft 1 (fmt.expBits + fmt.fracBits)

/-- The bits of the fraction. -/
def fracMask : Option Nat := mask fmt.fracBits

/-- The fraction bit that tells quiet NaNs from signalling ones. -/
def quietBit : Option Nat := do
  shiftLeft 1 (← count? (fmt.fracBits - 1))

/-- The exponent of the least significant bit of a subnormal number. -/
def minScale : Option Int := do
  scale? ((← scale? (1 - (← bias fmt))) - fmt.fracBits)

/-- The exponent field of infinities and NaNs in its place. -/
def topExponent : Option Nat := do
  shiftLeft (← expMax fmt) fmt.fracBits

/-! ## §2 Fields -/

/-- Is the sign set? -/
def isNegative (bits : Nat) : Option Bool := do
  return bits &&& (← signBit fmt) != 0

/-- The stored exponent. -/
def exponent (bits : Nat) : Option Nat := do
  return (← shiftRight bits fmt.fracBits) &&& (← expMax fmt)

/-- The stored fraction. -/
def fraction (bits : Nat) : Option Nat := do
  return bits &&& (← fracMask fmt)

/-- The encoding without its sign. -/
def magnitude (bits : Nat) : Option Nat := do
  return bits &&& complement (← signBit fmt)

/-- Is this a NaN, quiet or signalling? -/
def isNaN (bits : Nat) : Option Bool := do
  return (← exponent fmt bits) == (← expMax fmt) && (← fraction fmt bits) != 0

/-- The scale of a significand with a leading one under a stored exponent. -/
def normalScale (exp : Nat) : Option Int := do
  scale? ((← scale? ((← scale? exp) - (← bias fmt))) - fmt.fracBits)

/-- The sign and the class of an encoding. -/
def unpack (bits : Nat) : Option (Bool × Class) := do
  let negative ← isNegative fmt bits
  let exp ← exponent fmt bits
  let frac ← fraction fmt bits
  if exp = (← expMax fmt) then
    return (negative, if frac = 0 then .inf else .nan)
  else if exp = 0 then
    if frac = 0 then return (negative, .zero)
    else return (negative, .finite frac (← minScale fmt))
  else
    -- the leading one is not stored
    let sig := frac ||| (← shiftLeft 1 fmt.fracBits)
    return (negative, .finite sig (← normalScale fmt exp))

/-! ## §3 Building encodings -/

/-- Put a sign on a magnitude. -/
def signed (negative : Bool) (magnitude : Nat) : Option Nat := do
  if negative then return magnitude ||| (← signBit fmt) else return magnitude

/-- A signed infinity. -/
def infinity (negative : Bool) : Option Nat := do
  signed fmt negative (← topExponent fmt)

/-- A signed zero. -/
def zero (negative : Bool) : Option Nat := signed fmt negative 0

/-- A signed one. -/
def one (negative : Bool) : Option Nat := do
  signed fmt negative (← shiftLeft (← count? (← bias fmt)) fmt.fracBits)

/-- The positive quiet NaN without payload. -/
def defaultNaN : Option Nat := do
  return (← topExponent fmt) ||| (← quietBit fmt)

/-- A NaN made quiet. -/
def quiet (bits : Nat) : Option Nat := do
  return bits ||| (← quietBit fmt)

/-- The first NaN operand, made quiet. -/
def propagateNaN (a b : Nat) : Option Nat := do
  if ← isNaN fmt a then quiet fmt a else quiet fmt b

/-! ## §4 Machine words and formats agree -/

variable {fmt}

/-- In all three formats the constants are words and scales. -/
theorem constants_eq (hfmt : fmt ∈ [binary32, binary64, binary128]) :
    bias fmt = some (fmt.bias : Int) ∧ expMax fmt = some fmt.expMax ∧
      signBit fmt = some fmt.signBit ∧ fracMask fmt = some (2 ^ fmt.fracBits - 1) ∧
      quietBit fmt = some fmt.quietBit ∧ minScale fmt = some fmt.minScale ∧
      topExponent fmt = some fmt.infinityMagnitude := by
  revert hfmt
  revert fmt
  decide

/-- Signs that stand outside the fields, and bounds that keep scales small. -/
theorem bounds_of_mem (hfmt : fmt ∈ [binary32, binary64, binary128]) :
    fmt.fracBits ≤ 112 ∧ fmt.expBits + fmt.fracBits < 128 ∧ fmt.bias < 2 ^ (14 : Nat) ∧
      fmt.expMax = 2 * fmt.bias + 1 := by
  revert hfmt
  revert fmt
  decide

theorem exponent_le (fmt : Format) (bits : Nat) : fmt.exponent bits ≤ fmt.expMax :=
  Nat.le_sub_one_of_lt (Nat.mod_lt _ (Nat.two_pow_pos _))

section Fields

variable (hfmt : fmt ∈ [binary32, binary64, binary128]) (bits : Nat)

include hfmt

theorem isNegative_eq : isNegative fmt bits = some (fmt.isNegative bits) := by
  obtain ⟨-, -, hsign, -⟩ := constants_eq hfmt
  have hbit : (bits &&& fmt.signBit != 0) = fmt.isNegative bits := by
    rw [Format.isNegative_eq_testBit, Format.signBit, Nat.and_two_pow]
    cases bits.testBit (fmt.expBits + fmt.fracBits) <;> simp
  simp only [isNegative, hsign, some_bind, hbit, Option.pure_def]

theorem exponent_eq : exponent fmt bits = some (fmt.exponent bits) := by
  obtain ⟨-, hmax, -⟩ := constants_eq hfmt
  obtain ⟨hfrac, -⟩ := bounds_of_mem hfmt
  have hcount : fmt.fracBits < 128 := by omega
  simp only [exponent, hmax, shiftRight_eq hcount, some_bind, Option.pure_def, Format.exponent,
    Format.expMax, Nat.and_two_pow_sub_one_eq_mod]

theorem fraction_eq : fraction fmt bits = some (fmt.fraction bits) := by
  obtain ⟨-, -, -, hmask, -⟩ := constants_eq hfmt
  simp only [fraction, hmask, some_bind, Option.pure_def, Format.fraction,
    Nat.and_two_pow_sub_one_eq_mod]

theorem isNaN_eq : isNaN fmt bits = some (fmt.isNaN bits) := by
  obtain ⟨-, hmax, -⟩ := constants_eq hfmt
  simp only [isNaN, hmax, exponent_eq hfmt, fraction_eq hfmt, some_bind, Option.pure_def,
    Format.isNaN]

/-- The stored exponent is small enough for scales to be computed from it. -/
theorem exponent_lt : fmt.exponent bits < 2 ^ (15 : Nat) := by
  obtain ⟨-, -, hsmall, hmax⟩ := bounds_of_mem hfmt
  have hle := exponent_le fmt bits
  omega

theorem normalScale_eq {exp : Nat} (hexp : exp < 2 ^ (15 : Nat)) :
    normalScale fmt exp = some ((exp : Int) - fmt.bias - fmt.fracBits) := by
  obtain ⟨hbias, -⟩ := constants_eq hfmt
  obtain ⟨hfrac, -, hsmall, -⟩ := bounds_of_mem hfmt
  simp (disch := omega) only [normalScale, scale?_eq, hbias, some_bind]

theorem magnitude_eq (hbits : bits < 2 ^ fmt.width) :
    magnitude fmt bits = some (fmt.magnitude bits) := by
  obtain ⟨-, -, hsign, -⟩ := constants_eq hfmt
  obtain ⟨-, hwidth, -⟩ := bounds_of_mem hfmt
  have hlt : bits < 2 ^ (fmt.expBits + fmt.fracBits + 1) := by
    rwa [Format.width, Nat.add_assoc, Nat.add_comm] at hbits
  simp only [magnitude, hsign, some_bind, Option.pure_def, Format.magnitude, Format.signBit,
    and_complement_two_pow hlt hwidth]

theorem unpack_eq : unpack fmt bits = some (fmt.unpack bits) := by
  obtain ⟨-, hmax, -, -, -, hleast, -⟩ := constants_eq hfmt
  obtain ⟨hfrac, -⟩ := bounds_of_mem hfmt
  have hone : shiftLeft 1 fmt.fracBits = some (2 ^ fmt.fracBits) := shiftLeft_one (by omega)
  -- the leading one does not overlap the fraction
  have hsig : fmt.fraction bits ||| 2 ^ fmt.fracBits = 2 ^ fmt.fracBits + fmt.fraction bits :=
    or_two_pow (Nat.mod_lt _ (Nat.two_pow_pos _))
  simp only [unpack, isNegative_eq hfmt, exponent_eq hfmt, fraction_eq hfmt, hmax, hleast, hone,
    normalScale_eq hfmt (exponent_lt hfmt bits), some_bind, Option.pure_def, hsig, Format.unpack]
  split_ifs <;> rfl

end Fields

section Building

variable (hfmt : fmt ∈ [binary32, binary64, binary128]) (negative : Bool)

include hfmt

/-- A sign does not overlap the magnitude that it is put on. -/
theorem signed_eq {m : Nat} (hm : m < fmt.signBit) :
    signed fmt negative m = some (fmt.signed negative m) := by
  obtain ⟨-, -, hsign, -⟩ := constants_eq hfmt
  have hor : m ||| fmt.signBit = fmt.signBit + m := or_two_pow hm
  cases negative with
  | false => rfl
  | true => simp only [signed, if_true, hsign, some_bind, Option.pure_def, hor, Format.signed]

theorem zero_eq : zero fmt negative = some (fmt.zero negative) :=
  signed_eq hfmt negative (Nat.two_pow_pos _)

theorem infinity_eq : infinity fmt negative = some (fmt.infinity negative) := by
  obtain ⟨-, -, -, -, -, -, htop⟩ := constants_eq hfmt
  rw [infinity, htop, some_bind, signed_eq hfmt negative (Format.infinityMagnitude_lt fmt),
    Format.infinity, infinityMagnitude]

theorem one_eq : one fmt negative = some (fmt.one negative) := by
  obtain ⟨hbias, -⟩ := constants_eq hfmt
  obtain ⟨hfrac, hwidth, hsmall, hmax⟩ := bounds_of_mem hfmt
  have hcount : count? (fmt.bias : Int) = some fmt.bias := count?_eq (by omega) (by omega)
  -- the bias is below the exponent of the infinities
  have hlt : fmt.bias * 2 ^ fmt.fracBits < fmt.signBit := by
    have hle : fmt.bias * 2 ^ fmt.fracBits ≤ fmt.infinityMagnitude :=
      Nat.mul_le_mul_right _ (by omega)
    exact hle.trans_lt (Format.infinityMagnitude_lt fmt)
  have hword : fmt.signBit < 2 ^ (128 : Nat) := Nat.pow_lt_pow_right Nat.one_lt_two hwidth
  have hshift : shiftLeft fmt.bias fmt.fracBits = some (fmt.bias * 2 ^ fmt.fracBits) :=
    shiftLeft_eq (by omega) (hlt.trans hword)
  simp only [one, hbias, hcount, hshift, some_bind, signed_eq hfmt negative hlt, Format.one]

theorem defaultNaN_eq : defaultNaN fmt = some fmt.defaultNaN := by
  obtain ⟨-, -, -, -, hquiet, -, htop⟩ := constants_eq hfmt
  obtain ⟨hpos, -⟩ := widths_of_mem hfmt
  have hlt : fmt.quietBit < 2 ^ fmt.fracBits :=
    Nat.pow_lt_pow_right Nat.one_lt_two (Nat.sub_one_lt_of_lt hpos)
  simp only [defaultNaN, htop, hquiet, some_bind, Option.pure_def, Format.defaultNaN,
    infinityMagnitude, mul_or hlt]

theorem quiet_eq (bits : Nat) : quiet fmt bits = some (fmt.quiet bits) := by
  obtain ⟨-, -, -, -, hquiet, -⟩ := constants_eq hfmt
  simp only [quiet, hquiet, some_bind, Option.pure_def, Format.quiet]

theorem propagateNaN_eq (a b : Nat) : propagateNaN fmt a b = some (fmt.propagateNaN a b) := by
  rw [propagateNaN, isNaN_eq hfmt, quiet_eq hfmt, quiet_eq hfmt, Format.propagateNaN, some_bind]
  exact (apply_ite some _ _ _).symm

end Building

/-! ## §5 Operands -/

/-- A decoded number has a significand of the precision, and the scale of an exponent. -/
structure IsOperand (fmt : Format) (sig : Nat) (scale : Int) : Prop where
  ne_zero : sig ≠ 0
  lt : sig < 2 ^ (fmt.fracBits + 1)
  low : -16500 ≤ scale
  high : scale ≤ 16500

/-- The precision of the widest format has 113 bits. -/
theorem two_pow_precision_le (hfmt : fmt ∈ [binary32, binary64, binary128]) :
    2 ^ (fmt.fracBits + 1) ≤ 2 ^ (113 : Nat) := by
  obtain ⟨hfrac, -⟩ := bounds_of_mem hfmt
  exact Nat.pow_le_pow_right Nat.two_pos (by omega)

theorem isOperand_of_unpack (hfmt : fmt ∈ [binary32, binary64, binary128]) {bits sig : Nat}
    {negative : Bool} {scale : Int} (h : fmt.unpack bits = (negative, .finite sig scale)) :
    IsOperand fmt sig scale := by
  obtain ⟨hfrac, -, hsmall, hmax⟩ := bounds_of_mem hfmt
  have hfraction : fmt.fraction bits < 2 ^ fmt.fracBits := Nat.mod_lt _ (Nat.two_pow_pos _)
  have hexponent := exponent_le fmt bits
  have hdouble : 2 ^ (fmt.fracBits + 1) = 2 * 2 ^ fmt.fracBits := Nat.pow_succ'
  simp only [Format.unpack, Prod.mk.injEq] at h
  obtain ⟨-, hclass⟩ := h
  split_ifs at hclass with hspecial hinfinite hleast hzero
  · -- a subnormal number
    rw [Class.finite.injEq] at hclass
    obtain ⟨rfl, rfl⟩ := hclass
    refine ⟨hzero, by omega, ?_, ?_⟩
    · rw [Format.minScale]
      omega
    · rw [Format.minScale]
      omega
  · -- a number with a leading one
    rw [Class.finite.injEq] at hclass
    obtain ⟨rfl, rfl⟩ := hclass
    exact ⟨by omega, by omega, by omega, by omega⟩

end MeteredWasm.SoftFloat.Checked
