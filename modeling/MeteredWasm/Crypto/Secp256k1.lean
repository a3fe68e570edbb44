/-!
# The curve secp256k1

The points of `y² = x³ + 7` over a prime field, with their addition, and the lifting of an abscissa
to a point. Coordinates are the least representatives of their residues.
-/

namespace MeteredWasm.Crypto.Secp256k1

-- Powers of numbers are the core library's, whatever algebra is in scope.
attribute [local instance (high)] instPowNat

/-! ## §1 Residues -/

/-- The prime over which the curve is defined. -/
def prime : Nat := 2 ^ (256 : Nat) - 2 ^ (32 : Nat) - 977

/-- The number of points of the curve, itself a prime. -/
def order : Nat := 0xFFFFFFFFFFFFFFFFFFFFFFFFFFFFFFFEBAAEDCE6AF48A03BBFD25E8CD0364141

/-- A difference modulo `m`. -/
def subMod (m a b : Nat) : Nat :=
  (a + (m - b % m)) % m

/-- A power modulo `m`, by squaring; the exponent has at most the given number of bits. -/
def powMod (m a : Nat) : (bits exponent : Nat) → Nat
  | 0, _ => 1 % m
  | bits + 1, exponent =>
    let half := powMod m a bits (exponent / 2)
    if exponent % 2 = 0 then half * half % m else half * half % m * a % m

/-- The coefficient of the second number in Euclid's algorithm on two numbers, given those of the
last two remainders. -/
def euclid (a b : Nat) (s t : Int) : Int :=
  if b = 0 then s else euclid b (a % b) t (s - (a / b : Nat) * t)
termination_by b
decreasing_by exact Nat.mod_lt _ (Nat.pos_of_ne_zero ‹_›)

/-- The inverse of a number that has no divisor in common with `m`. -/
def inverse (m a : Nat) : Nat :=
  (euclid m (a % m) 0 1 % m).toNat

/-! ## §2 Points -/

/-- A point of the curve. -/
inductive Point where
  | infinity
  | affine (x y : Nat)
deriving DecidableEq, Repr

namespace Point

/-- The generator. -/
def generator : Point :=
  .affine 0x79BE667EF9DCBBAC55A06295CE870B07029BFCDB2DCE28D959F2815B16F81798
    0x483ADA7726A3C4655DA4FBFC0E1108A8FD17B448A68554199C47D08FFB10D4B8

/-- The third point on the line of a given slope through two points, reflected. -/
def chord (slope x₁ y₁ x₂ : Nat) : Point :=
  let x := subMod prime (slope * slope) (x₁ + x₂)
  .affine x (subMod prime (slope * subMod prime x₁ x) y₁)

/-- The sum of two points. -/
def add : Point → Point → Point
  | .infinity, q => q
  | p, .infinity => p
  | .affine x₁ y₁, .affine x₂ y₂ =>
    if x₁ = x₂ then
      if (y₁ + y₂) % prime = 0 then .infinity
      else chord (3 * x₁ * x₁ * inverse prime (2 * y₁) % prime) x₁ y₁ x₂
    else chord (subMod prime y₂ y₁ * inverse prime (subMod prime x₂ x₁) % prime) x₁ y₁ x₂

/-- A multiple of a point, by doubling; the factor has at most the given number of bits. -/
def times : (bits factor : Nat) → Point → Point
  | 0, _, _ => .infinity
  | bits + 1, factor, p =>
    let half := times bits (factor / 2) p
    let even := half.add half
    if factor % 2 = 0 then even else even.add p

/-- The point with a given abscissa whose ordinate is even or odd as asked, if there is one. A
square root modulo the prime is a power, since the prime leaves three when divided by four. -/
def lift? (x : Nat) (odd : Bool) : Option Point :=
  if prime ≤ x then none
  else
    let square := (x * x * x + 7) % prime
    let y := powMod prime square 256 ((prime + 1) / 4)
    if y * y % prime ≠ square then none
    else some (.affine x (if (y % 2 == 1) == odd then y else subMod prime 0 y))

end Point

end MeteredWasm.Crypto.Secp256k1
