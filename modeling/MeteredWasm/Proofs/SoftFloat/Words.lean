import MeteredWasm.Proofs.SoftFloat.Nearest
import MeteredWasm.SoftFloat.Operator

/-!
# Encodings in words

The encodings that operations build have the width of their format. So the words that hold them lose
nothing, and what is said about the encoding of a result holds of the value that an instruction
leaves.
-/

namespace MeteredWasm.SoftFloat

open Wasm (Value)

-- Powers of numbers are the core library's, as in the formats themselves.
attribute [local instance (high)] instPowNat

/-! ## §1 Encodings that are built -/

namespace Format

variable {fmt : Format}

theorem zero_lt (negative : Bool) : fmt.zero negative < 2 ^ fmt.width :=
  signed_lt negative (Nat.two_pow_pos _)

theorem infinity_lt (negative : Bool) : fmt.infinity negative < 2 ^ fmt.width :=
  signed_lt negative (infinityMagnitude_lt fmt)

/-- A fraction below the greatest exponent is a magnitude. -/
theorem infinityMagnitude_add_lt {fraction : Nat} (h : fraction < 2 ^ fmt.fracBits) :
    fmt.infinityMagnitude + fraction < fmt.signBit := by
  have hadd := infinityMagnitude_add fmt
  omega

theorem quietBit_lt (hfrac : 0 < fmt.fracBits) : fmt.quietBit < 2 ^ fmt.fracBits :=
  Nat.pow_lt_pow_right Nat.one_lt_two (Nat.sub_one_lt_of_lt hfrac)

theorem defaultNaN_lt (hfrac : 0 < fmt.fracBits) : fmt.defaultNaN < 2 ^ fmt.width :=
  signed_lt false (infinityMagnitude_add_lt (quietBit_lt hfrac))

theorem quiet_lt {bits : Nat} (h : bits < 2 ^ fmt.width) : fmt.quiet bits < 2 ^ fmt.width := by
  refine Nat.or_lt_two_pow h (Nat.pow_lt_pow_right Nat.one_lt_two ?_)
  rw [width]
  omega

theorem isFinite_zero (hexp : 0 < fmt.expBits) (negative : Bool) :
    fmt.IsFinite (fmt.zero negative) := by
  rw [isFinite_iff, zero, magnitude_signed (Nat.two_pow_pos _)]
  exact infinityMagnitude_pos hexp

theorem isInfinite_infinity (fmt : Format) (negative : Bool) :
    fmt.IsInfinite (fmt.infinity negative) := by
  have hmagnitude : fmt.magnitude (fmt.infinity negative) = fmt.expMax * 2 ^ fmt.fracBits :=
    magnitude_signed (infinityMagnitude_lt fmt)
  rw [IsInfinite, exponent_eq, fraction_eq, hmagnitude]
  exact ⟨Nat.mul_div_cancel _ (Nat.two_pow_pos _), Nat.mul_mod_left _ _⟩

end Format

/-! ## §2 Values of instructions -/

namespace FloatWidth

variable {w : FloatWidth}

theorem bits?_value {bits : Nat} (h : bits < 2 ^ w.format.width) :
    w.bits? (w.value bits) = some bits := by
  cases w with
  | single => exact congrArg some (UInt32.toNat_ofNat_of_lt' h)
  | double => exact congrArg some (UInt64.toNat_ofNat_of_lt' h)

theorem bits?_lt {v : Value} {bits : Nat} (h : w.bits? v = some bits) :
    bits < 2 ^ w.format.width := by
  cases w <;> cases v <;> cases h
  · exact UInt32.toNat_lt _
  · exact UInt64.toNat_lt _

end FloatWidth

/-- The instruction leaves a float value, the encoding of which has a property. -/
def Operator.Leaves (op : Operator) (args : List Value) (w : FloatWidth) (P : Nat → Prop) : Prop :=
  ∃ v bits, op.eval args = .ok v ∧ w.bits? v = some bits ∧ P bits

theorem Operator.Leaves.of_eval {op : Operator} {args : List Value} {w : FloatWidth}
    {P : Nat → Prop} {bits : Nat} (h : op.eval args = .ok (w.value bits))
    (hlt : bits < 2 ^ w.format.width) (hP : P bits) : op.Leaves args w P :=
  ⟨w.value bits, bits, h, FloatWidth.bits?_value hlt, hP⟩

end MeteredWasm.SoftFloat
