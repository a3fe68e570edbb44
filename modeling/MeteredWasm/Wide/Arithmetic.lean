import MeteredWasm.Fault
import MeteredWasm.SoftFloat.Integral
import MeteredWasm.SoftFloat.Order

/-!
# Wide arithmetic

Operations on 128-bit words: integers in two's complement and quadruple-precision floats. These are
what compiled code needs where the instruction set has neither. Shifts by the width or more move
every bit out, the one overflowing division wraps, and conversions to integers saturate.
-/

namespace MeteredWasm.Wide

open SoftFloat (Format binary32 binary64 binary128)

-- Powers of numbers are the core library's, whatever algebra is in scope.
attribute [local instance (high)] instPowNat

/-- A 128-bit word. -/
abbrev Word := BitVec 128

/-! ## §1 Integers -/

/-- A word from its low and its high half. -/
def join (low high : UInt64) : Word :=
  high.toBitVec ++ low.toBitVec

/-- Shift left. -/
def shl (v : Word) (n : Nat) : Word := if n < 128 then v <<< n else 0

/-- Shift right, filling with the sign. -/
def ashr (v : Word) (n : Nat) : Word := v.sshiftRight (Nat.min n 127)

/-- Shift right, filling with zeros. -/
def lshr (v : Word) (n : Nat) : Word := if n < 128 then v >>> n else 0

/-- The product, modulo the width. -/
def mul (a b : Word) : Word := a * b

/-- A result that needs a divisor other than zero. -/
def dividing (b : Word) (quotient : Word) : Except Trap Word :=
  if b = 0 then .error .divisionByZero else .ok quotient

/-- The signed quotient, toward zero. -/
def divSigned (a b : Word) : Except Trap Word := dividing b (a.sdiv b)

/-- The unsigned quotient. -/
def divUnsigned (a b : Word) : Except Trap Word := dividing b (a / b)

/-- The signed remainder, with the sign of the dividend. -/
def remSigned (a b : Word) : Except Trap Word := dividing b (a.srem b)

/-- The unsigned remainder. -/
def remUnsigned (a b : Word) : Except Trap Word := dividing b (a % b)

/-! ## §2 Quadruple precision -/

/-- The word of an encoding. -/
def ofBits (bits : Nat) : Word := BitVec.ofNat 128 bits

/-- Addition. -/
def quadAdd (a b : Word) : Word := ofBits (SoftFloat.add binary128 a.toNat b.toNat)

/-- Subtraction. -/
def quadSub (a b : Word) : Word := ofBits (SoftFloat.sub binary128 a.toNat b.toNat)

/-- Multiplication. -/
def quadMul (a b : Word) : Word := ofBits (SoftFloat.mul binary128 a.toNat b.toNat)

/-- Division. -/
def quadDiv (a b : Word) : Word := ofBits (SoftFloat.div binary128 a.toNat b.toNat)

/-- Negation. -/
def quadNeg (a : Word) : Word := ofBits (SoftFloat.neg binary128 a.toNat)

/-- Three-way comparison: minus one, zero or one for an ordered pair, and a given answer for an
unordered one. -/
def quadCompare (a b : Word) (unordered : Int) : Int :=
  match SoftFloat.compare binary128 a.toNat b.toNat with
  | none => unordered
  | some .lt => -1
  | some .eq => 0
  | some .gt => 1

/-- Is one of the two a NaN? -/
def quadUnordered (a b : Word) : Bool :=
  binary128.isNaN a.toNat || binary128.isNaN b.toNat

/-! ## §3 Conversions -/

/-- An integer in quadruple precision. -/
def quadOfInt (i : Int) : Word := ofBits (SoftFloat.ofInt binary128 i)

/-- A single-precision number in quadruple precision. -/
def quadOfSingle (a : UInt32) : Word := ofBits (SoftFloat.convert binary32 binary128 a.toNat)

/-- A double-precision number in quadruple precision. -/
def quadOfDouble (a : UInt64) : Word := ofBits (SoftFloat.convert binary64 binary128 a.toNat)

/-- A quadruple-precision number rounded to double precision. -/
def quadToDouble (a : Word) : UInt64 :=
  UInt64.ofNat (SoftFloat.convert binary128 binary64 a.toNat)

/-- A quadruple-precision number rounded to single precision. -/
def quadToSingle (a : Word) : UInt32 :=
  UInt32.ofNat (SoftFloat.convert binary128 binary32 a.toNat)

/-- Truncation to a signed integer; what does not fit becomes the least one. -/
def toSignedSaturating (fmt : Format) (a width : Nat) : Int :=
  (SoftFloat.truncateSigned fmt a width).getD (-(2 ^ (width - 1)))

/-- Truncation to an unsigned integer; what does not fit becomes the greatest one. -/
def toUnsignedSaturating (fmt : Format) (a width : Nat) : Nat :=
  (SoftFloat.truncateUnsigned fmt a width).getD (2 ^ width - 1)

/-- A signed word in double precision. -/
def doubleOfSigned (v : Word) : UInt64 :=
  UInt64.ofNat (SoftFloat.ofInt binary64 v.toInt)

/-- An unsigned word in double precision. -/
def doubleOfUnsigned (v : Word) : UInt64 :=
  UInt64.ofNat (SoftFloat.ofSignedNat binary64 false v.toNat)

end MeteredWasm.Wide
