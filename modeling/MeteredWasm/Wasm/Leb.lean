import MeteredWasm.Fault

/-!
# LEB128 integers

Integers of variable length: seven bits to a byte, least significant first, the top bit set on every
byte but the last. Writing gives the shortest form; reading accepts padded forms as long as they
stay within the length of the widest integer and leave no bit unaccounted for.
-/

namespace MeteredWasm.Wasm.Leb

-- Powers of numbers are the core library's, whatever algebra is in scope.
attribute [local instance (high)] instPowNat

/-! ## §1 Writing -/

/-- The shortest form of a natural number. -/
def unsigned (n : Nat) : List UInt8 :=
  if n < 128 then [UInt8.ofNat n]
  else UInt8.ofNat (n % 128 + 128) :: unsigned (n / 128)
termination_by n

/-- The shortest form of an integer. -/
def signed (i : Int) : List UInt8 :=
  if -64 ≤ i ∧ i < 64 then [UInt8.ofNat (i % 128).toNat]
  else UInt8.ofNat ((i % 128).toNat + 128) :: signed (i / 128)
termination_by i.natAbs

/-! ## §2 Reading -/

/-- Read a natural number below `2 ^ bits`: its value, the number of bytes used, and the rest. -/
def readUnsigned : (bits : Nat) → List UInt8 → Except Malformed (Nat × Nat × List UInt8)
  | _, [] => .error .unexpectedEnd
  | bits, b :: rest =>
    if b.toNat < 128 then
      if b.toNat < 2 ^ bits then .ok (b.toNat, 1, rest) else .error .integerTooLarge
    else if bits ≤ 7 then .error .integerTooLong
    else do
      let (n, used, rest) ← readUnsigned (bits - 7) rest
      return (b.toNat % 128 + 128 * n, used + 1, rest)

/-- Read an integer of `bits` bits in two's complement: its value, the number of bytes used, and
the rest. -/
def readSigned : (bits : Nat) → List UInt8 → Except Malformed (Int × Nat × List UInt8)
  | _, [] => .error .unexpectedEnd
  | bits, b :: rest =>
    if b.toNat < 128 then
      let i : Int := if b.toNat < 64 then b.toNat else (b.toNat : Int) - 128
      if -(2 ^ (bits - 1)) ≤ i ∧ i < 2 ^ (bits - 1) then .ok (i, 1, rest)
      else .error .integerTooLarge
    else if bits ≤ 7 then .error .integerTooLong
    else do
      let (i, used, rest) ← readSigned (bits - 7) rest
      return ((b.toNat % 128 : Nat) + 128 * i, used + 1, rest)

end MeteredWasm.Wasm.Leb
