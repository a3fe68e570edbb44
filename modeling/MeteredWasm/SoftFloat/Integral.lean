import MeteredWasm.SoftFloat.Rounding

/-!
# Integral values and conversions

Rounding to an integral value in the same format, and the conversions between formats and to and
from integers.
-/

namespace MeteredWasm.SoftFloat

-- Powers of numbers are the core library's, whatever algebra is in scope.
attribute [local instance (high)] instPowNat

/-! ## §1 Rounding to an integral value -/

/-- Which of the neighbouring integers is taken. -/
inductive Direction where
  | towardZero
  | down
  | up
  | nearest
deriving DecidableEq, Repr

/-- Is the integer further from zero taken? `nearest` says whether it is the nearer one, or, where
both are equally near, the even one. -/
def Direction.away (d : Direction) (negative nearest : Bool) : Bool :=
  match d with
  | .towardZero => false
  | .down => negative
  | .up => !negative
  | .nearest => nearest

/-- The integral value next to a number in the given direction. Only the bits below the binary
point change; a carry out of the fraction raises the exponent as it should. -/
def roundToIntegral (fmt : Format) (a : Nat) (d : Direction) : Nat :=
  match fmt.unpack a with
  | (negative, .finite _ _) =>
    let exp := fmt.exponent a
    if fmt.bias + fmt.fracBits ≤ exp then a
    else if exp < fmt.bias then
      -- below one in magnitude: nearest is one exactly above one half
      let nearest := exp + 1 == fmt.bias && fmt.fraction a != 0
      if d.away negative nearest then fmt.one negative else fmt.zero negative
    else
      let low := fmt.bias + fmt.fracBits - exp
      let fraction := a % 2 ^ low
      let half := 2 ^ (low - 1)
      if fraction = 0 then a
      else
        let truncated := a - fraction
        let nearest := decide (half < fraction) || (fraction == half && a / 2 ^ low % 2 == 1)
        if d.away negative nearest then truncated + 2 ^ low else truncated
  | _ => a

/-! ## §2 Conversions -/

/-- The same number in another format, rounded when that is narrower. The payload of a NaN keeps
its high bits. -/
def convert (source target : Format) (a : Nat) : Nat :=
  match source.unpack a with
  | (negative, .nan) =>
    let payload := source.fraction a
    let payload :=
      if source.fracBits ≤ target.fracBits then payload * 2 ^ (target.fracBits - source.fracBits)
      else payload / 2 ^ (source.fracBits - target.fracBits)
    target.signed negative (target.expMax * 2 ^ target.fracBits + (payload ||| target.quietBit))
  | (negative, .inf) => target.infinity negative
  | (negative, .zero) => target.zero negative
  | (negative, .finite sig scale) => roundPack target negative scale sig false

/-- The encoding nearest to a signed magnitude. -/
def ofSignedNat (fmt : Format) (negative : Bool) (magnitude : Nat) : Nat :=
  roundPack fmt negative 0 magnitude false

/-- The encoding nearest to an integer. -/
def ofInt (fmt : Format) (i : Int) : Nat :=
  ofSignedNat fmt (i < 0) i.natAbs

/-- The sign and the truncated magnitude of a number, when the magnitude fits 128 bits. -/
def truncate (fmt : Format) (a : Nat) : Option (Bool × Nat) :=
  match fmt.unpack a with
  | (_, .nan) | (_, .inf) => none
  | (negative, .zero) => some (negative, 0)
  | (negative, .finite sig scale) =>
    if 0 ≤ scale then
      if 128 < bitWidth sig + scale.toNat then none else some (negative, sig * 2 ^ scale.toNat)
    else some (negative, sig / 2 ^ (-scale).toNat)

/-- The truncated number, when it fits a signed integer of the given width. -/
def truncateSigned (fmt : Format) (a width : Nat) : Option Int :=
  match truncate fmt a with
  | none => none
  | some (true, magnitude) => if magnitude ≤ 2 ^ (width - 1) then some (-magnitude) else none
  | some (false, magnitude) => if magnitude < 2 ^ (width - 1) then some magnitude else none

/-- The truncated number, when it fits an unsigned integer of the given width. -/
def truncateUnsigned (fmt : Format) (a width : Nat) : Option Nat :=
  match truncate fmt a with
  | none => none
  | some (true, magnitude) => if magnitude = 0 then some 0 else none
  | some (false, magnitude) => if magnitude < 2 ^ width then some magnitude else none

end MeteredWasm.SoftFloat
