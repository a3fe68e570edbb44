import MeteredWasm.SoftFloat.Format

/-!
# Rounding

The only place where a result is rounded: an exact significand and scale, possibly with a remainder
below the last bit, become the nearest encoding, ties to even. Results too small for the exponent
range become subnormal or zero, results too large become infinity.
-/

namespace MeteredWasm.SoftFloat

-- Powers of numbers are the core library's, whatever algebra is in scope.
attribute [local instance (high)] instPowNat

/-- The number of bits of a number; zero has none. -/
def bitWidth (n : Nat) : Nat :=
  if n = 0 then 0 else n.log2 + 1

/-- A number with its last bit set. -/
def withLowBit (n : Nat) : Nat :=
  n / 2 * 2 + 1

/-- Shift right; if a bit that is lost was set, the last bit that is kept is set. -/
def shiftRightJam (x shift : Nat) : Nat :=
  if x % 2 ^ shift = 0 then x / 2 ^ shift else withLowBit (x / 2 ^ shift)

/-- The last bit of a 128-bit word stands for a remainder: the significand moves up until only
the top bit of the word is free, or down by one bit where no bit is free. -/
def parkRemainder (sig : Nat) (scale : Int) : Nat × Int :=
  let width := bitWidth sig
  if 128 ≤ width then (withLowBit (shiftRightJam sig 1), scale + 1)
  else (withLowBit (sig * 2 ^ (127 - width)), scale - (127 - width : Nat))

/-- Drop the last `shift` bits, rounding to nearest and ties to even. -/
def roundShift (sig shift : Nat) : Nat :=
  let kept := sig / 2 ^ shift
  let rem := sig % 2 ^ shift
  let half := 2 ^ (shift - 1)
  if half < rem ∨ (rem = half ∧ kept % 2 = 1) then kept + 1 else kept

/-- The encoding nearest to `sig * 2 ^ scale`. -/
def roundExact (fmt : Format) (negative : Bool) (scale : Int) (sig : Nat) : Nat :=
  if sig = 0 then fmt.zero negative
  else
    let precision : Int := fmt.fracBits + 1
    let shift := max ((bitWidth sig : Int) - precision) (fmt.minScale - scale)
    let mantissa := if shift ≤ 0 then sig * 2 ^ (-shift).toNat else roundShift sig shift.toNat
    let scale := scale + shift
    if mantissa = 0 then fmt.zero negative
    else if mantissa < 2 ^ fmt.fracBits then fmt.signed negative mantissa
    else
      let biased := scale + fmt.fracBits + fmt.bias
      -- a carry out of the mantissa leaves a power of two, one exponent higher
      let (mantissa, biased) :=
        if 2 ^ (fmt.fracBits + 1) ≤ mantissa then (mantissa / 2, biased + 1)
        else (mantissa, biased)
      if (fmt.expMax : Int) ≤ biased then fmt.infinity negative
      else fmt.signed negative (biased.toNat * 2 ^ fmt.fracBits + mantissa % 2 ^ fmt.fracBits)

/-- The encoding nearest to `sig * 2 ^ scale`, or, with a remainder, to the numbers strictly
between it and `(sig + 1) * 2 ^ scale`. -/
def roundPack (fmt : Format) (negative : Bool) (scale : Int) (sig : Nat) (remainder : Bool) : Nat :=
  if remainder then
    let (sig, scale) := parkRemainder sig scale
    roundExact fmt negative scale sig
  else roundExact fmt negative scale sig

end MeteredWasm.SoftFloat
