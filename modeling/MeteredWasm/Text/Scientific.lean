import MeteredWasm.SoftFloat.Format

/-!
# Scientific notation

A double-precision number as a mantissa with a fixed number of decimals and a signed exponent of at
least two digits. The decimals are those of the exact value, rounded to nearest and ties to even.
-/

namespace MeteredWasm.Text

open SoftFloat (binary64)

-- Powers of numbers are the core library's, whatever algebra is in scope.
attribute [local instance (high)] instPowNat

/-- The number of decimal digits of a positive number. -/
def decimalWidth (n : Nat) : Nat :=
  (Nat.toDigits 10 n).length

/-- A quotient rounded to nearest, ties to even. -/
def roundedDiv (num den : Nat) : Nat :=
  let quot := num / den
  let rem := num % den
  if den < 2 * rem ∨ (2 * rem = den ∧ quot % 2 = 1) then quot + 1 else quot

/-- The greatest `e` with `10 ^ e ≤ num / den`, for positive numbers. The digit counts give it up
to one. -/
def decimalExponent (num den : Nat) : Int :=
  let e : Int := (decimalWidth num : Int) - decimalWidth den
  let reaches := if 0 ≤ e then den * 10 ^ e.toNat ≤ num else den ≤ num * 10 ^ (-e).toNat
  if reaches then e else e - 1

/-- The first `decimals + 1` digits of a positive quotient, rounded, as a number, and the exponent
of the first of them. -/
def leadingDigits (num den decimals : Nat) : Nat × Int :=
  let e := decimalExponent num den
  let shift : Int := (decimals : Int) - e
  let digits := roundedDiv (num * 10 ^ shift.toNat) (den * 10 ^ (-shift).toNat)
  -- rounding up can reach the next power of ten
  if 10 ^ (decimals + 1) ≤ digits then (digits / 10, e + 1) else (digits, e)

/-- A number written with at least the given count of digits. -/
def paddedDecimal (width n : Nat) : String :=
  let digits := Nat.toDigits 10 n
  String.ofList (List.replicate (width - digits.length) '0' ++ digits)

/-- Put a mantissa and an exponent together. -/
def scientificText (decimals digits : Nat) (exponent : Int) : String :=
  let all := (paddedDecimal (decimals + 1) digits).toList
  let fraction := if decimals = 0 then [] else '.' :: all.drop 1
  String.ofList (all.take 1 ++ fraction) ++ "e" ++ (if exponent < 0 then "-" else "+") ++
    paddedDecimal 2 exponent.natAbs

/-- The text of a double-precision encoding with a given number of decimals. Infinities and NaNs
show their sign. -/
def scientific (bits : UInt64) (decimals : Nat) : String :=
  let (negative, cls) := binary64.unpack bits.toNat
  let sign := if negative then "-" else ""
  match cls with
  | .nan => sign ++ "nan"
  | .inf => sign ++ "inf"
  | .zero => sign ++ scientificText decimals 0 0
  | .finite sig scale =>
    let (digits, exponent) := leadingDigits (sig * 2 ^ scale.toNat) (2 ^ (-scale).toNat) decimals
    sign ++ scientificText decimals digits exponent

end MeteredWasm.Text
