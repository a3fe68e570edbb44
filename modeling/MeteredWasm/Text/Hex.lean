/-!
# Hexadecimal digits

Lowercase digits of words and bytes, at a fixed width, and two uppercase digits for table listings.
-/

namespace MeteredWasm.Text

/-- The digit of a number below sixteen. -/
def hexDigit (n : Nat) : Char :=
  if n < 10 then Char.ofNat (48 + n) else Char.ofNat (87 + n)

/-- The last `width` hexadecimal digits of `n`, most significant first. -/
def hexDigits : Nat → Nat → List Char
  | 0, _ => []
  | width + 1, n => hexDigits width (n / 16) ++ [hexDigit (n % 16)]

/-- `n` at a fixed width, in lowercase. -/
def hexWord (width n : Nat) : String :=
  String.ofList (hexDigits width n)

/-- Two lowercase digits for each byte. -/
def hexBytes (bytes : List UInt8) : String :=
  String.ofList (bytes.flatMap fun b => [hexDigit (b.toNat / 16), hexDigit (b.toNat % 16)])

/-- Two digits of a byte, in uppercase. -/
def hexByteUpper (b : UInt8) : String :=
  (hexWord 2 b.toNat).map Char.toUpper

end MeteredWasm.Text
