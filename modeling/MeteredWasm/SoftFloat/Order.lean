import MeteredWasm.SoftFloat.Arithmetic

/-!
# Signs, comparison and extrema

Operations that read an encoding as a sign and a magnitude. Magnitudes of numbers are ordered as
the numbers are, so comparison needs no decoding.
-/

namespace MeteredWasm.SoftFloat

/-- The encoding without its sign. -/
def abs (fmt : Format) (a : Nat) : Nat :=
  fmt.magnitude a

/-- The magnitude of `a` with the sign of `b`. -/
def copysign (fmt : Format) (a b : Nat) : Nat :=
  fmt.signed (fmt.isNegative b) (fmt.magnitude a)

/-- An integer that orders the encodings of numbers; both zeros have the key zero. -/
def orderKey (fmt : Format) (bits : Nat) : Int :=
  if fmt.isNegative bits then -(fmt.magnitude bits : Int) else fmt.magnitude bits

/-- The order of two encodings, or `none` when one is a NaN. -/
def compare (fmt : Format) (a b : Nat) : Option Ordering :=
  if fmt.isNaN a || fmt.isNaN b then none
  else some (Ord.compare (orderKey fmt a) (orderKey fmt b))

/-- Equal and ordered. -/
def eq (fmt : Format) (a b : Nat) : Bool :=
  compare fmt a b == some .eq

/-- Less and ordered. -/
def lt (fmt : Format) (a b : Nat) : Bool :=
  compare fmt a b == some .lt

/-- Less or equal, and ordered. -/
def le (fmt : Format) (a b : Nat) : Bool :=
  compare fmt a b == some .lt || compare fmt a b == some .eq

/-- The smaller operand; a NaN operand as it is; the negative zero of two zeros. -/
def min (fmt : Format) (a b : Nat) : Nat :=
  if fmt.isNaN a then a
  else if fmt.isNaN b then b
  else match fmt.isNegative a, fmt.isNegative b with
    | true, false => a
    | false, true => b
    | _, _ => if lt fmt a b then a else b

/-- The larger operand; a NaN operand as it is; the positive zero of two zeros. -/
def max (fmt : Format) (a b : Nat) : Nat :=
  if fmt.isNaN a then a
  else if fmt.isNaN b then b
  else match fmt.isNegative a, fmt.isNegative b with
    | true, false => b
    | false, true => a
    | _, _ => if lt fmt a b then b else a

end MeteredWasm.SoftFloat
