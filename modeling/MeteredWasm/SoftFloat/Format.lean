/-!
# Binary interchange formats

A format is a pair of field widths. An encoding is a natural number: sign, biased exponent and
fraction from the most significant bit down. One description serves binary32, binary64 and
binary128.
-/

namespace MeteredWasm.SoftFloat

-- Powers of numbers are the core library's, whatever algebra is in scope.
attribute [local instance (high)] instPowNat

/-! ## §1 Fields -/

/-- Widths of the exponent and of the fraction. -/
structure Format where
  expBits : Nat
  fracBits : Nat
deriving DecidableEq, Repr

/-- Single precision. -/
def binary32 : Format := ⟨8, 23⟩

/-- Double precision. -/
def binary64 : Format := ⟨11, 52⟩

/-- Quadruple precision. -/
def binary128 : Format := ⟨15, 112⟩

namespace Format

variable (fmt : Format)

/-- The number of bits of an encoding. -/
def width : Nat := 1 + fmt.expBits + fmt.fracBits

/-- What is added to an exponent before it is stored. -/
def bias : Nat := 2 ^ (fmt.expBits - 1) - 1

/-- The exponent field of infinities and NaNs. -/
def expMax : Nat := 2 ^ fmt.expBits - 1

/-- The weight of the sign. -/
def signBit : Nat := 2 ^ (fmt.expBits + fmt.fracBits)

/-- The fraction bit that tells quiet NaNs from signalling ones. -/
def quietBit : Nat := 2 ^ (fmt.fracBits - 1)

/-- The exponent of the least significant bit of a subnormal number. -/
def minScale : Int := 1 - (fmt.bias : Int) - fmt.fracBits

/-- The stored exponent. -/
def exponent (bits : Nat) : Nat := bits / 2 ^ fmt.fracBits % 2 ^ fmt.expBits

/-- The stored fraction. -/
def fraction (bits : Nat) : Nat := bits % 2 ^ fmt.fracBits

/-- Is the sign set? -/
def isNegative (bits : Nat) : Bool := bits / fmt.signBit % 2 == 1

/-- The encoding without its sign. -/
def magnitude (bits : Nat) : Nat := bits % fmt.signBit

/-- Is this a NaN, quiet or signalling? -/
def isNaN (bits : Nat) : Bool :=
  fmt.exponent bits == fmt.expMax && fmt.fraction bits != 0

/-! ## §2 Building encodings -/

/-- Put a sign on a magnitude. -/
def signed (negative : Bool) (magnitude : Nat) : Nat :=
  if negative then fmt.signBit + magnitude else magnitude

/-- The positive quiet NaN without payload: the result of an invalid operation. -/
def defaultNaN : Nat := fmt.expMax * 2 ^ fmt.fracBits + fmt.quietBit

/-- A signed infinity. -/
def infinity (negative : Bool) : Nat := fmt.signed negative (fmt.expMax * 2 ^ fmt.fracBits)

/-- A signed zero. -/
def zero (negative : Bool) : Nat := fmt.signed negative 0

/-- A signed one. -/
def one (negative : Bool) : Nat := fmt.signed negative (fmt.bias * 2 ^ fmt.fracBits)

/-- A NaN made quiet; its sign and payload stay. -/
def quiet (bits : Nat) : Nat := bits ||| fmt.quietBit

/-- The result when an operand is a NaN: the first NaN operand, made quiet. -/
def propagateNaN (a b : Nat) : Nat :=
  if fmt.isNaN a then fmt.quiet a else fmt.quiet b

end Format

/-! ## §3 Decoding -/

/-- What an encoding stands for, apart from its sign. -/
inductive Class where
  | nan
  | inf
  | zero
  /-- The number `sig * 2 ^ scale`, where `sig` is not zero. -/
  | finite (sig : Nat) (scale : Int)
deriving DecidableEq, Repr

/-- The sign and the class of an encoding. -/
def Format.unpack (fmt : Format) (bits : Nat) : Bool × Class :=
  let exp := fmt.exponent bits
  let frac := fmt.fraction bits
  let cls :=
    if exp = fmt.expMax then
      if frac = 0 then Class.inf else Class.nan
    else if exp = 0 then
      if frac = 0 then Class.zero else Class.finite frac fmt.minScale
    else Class.finite (2 ^ fmt.fracBits + frac) ((exp : Int) - fmt.bias - fmt.fracBits)
  (fmt.isNegative bits, cls)

end MeteredWasm.SoftFloat
