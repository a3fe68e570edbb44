import MeteredWasm.SoftFloat.Rounding

/-!
# Arithmetic

Addition, subtraction, multiplication, division and square root on encodings. Each computes an
exact significand, or one with a remainder, and rounds once. An invalid operation gives the default
NaN; a NaN operand is propagated quiet.
-/

namespace MeteredWasm.SoftFloat

-- Powers of numbers are the core library's, whatever algebra is in scope.
attribute [local instance (high)] instPowNat

/-! ## §1 Addition -/

/-- The sum of two nonzero finite numbers, each a sign, a significand and a scale, where the first
has the larger scale. Three guard bits keep what the alignment of the second shifts out. -/
def addFinite (fmt : Format) (negBig : Bool) (sigBig : Nat) (scaleBig : Int)
    (negSmall : Bool) (sigSmall : Nat) (scaleSmall : Int) : Nat :=
  let big := sigBig * 8
  let small := shiftRightJam (sigSmall * 8) (scaleBig - scaleSmall).toNat
  let scale := scaleBig - 3
  if negBig = negSmall then roundPack fmt negBig scale (big + small) false
  else if big = small then fmt.zero false
  else if small < big then roundPack fmt negBig scale (big - small) false
  else roundPack fmt negSmall scale (small - big) false

/-- The sum of two encodings. -/
def add (fmt : Format) (a b : Nat) : Nat :=
  match fmt.unpack a, fmt.unpack b with
  | (_, .nan), _ | _, (_, .nan) => fmt.propagateNaN a b
  | (na, .inf), (nb, .inf) => if na = nb then a else fmt.defaultNaN
  | (_, .inf), _ => a
  | _, (_, .inf) => b
  | (na, .zero), (nb, .zero) => fmt.zero (na && nb)
  | (_, .zero), _ => b
  | _, (_, .zero) => a
  | (na, .finite ma ea), (nb, .finite mb eb) =>
    if eb ≤ ea then addFinite fmt na ma ea nb mb eb else addFinite fmt nb mb eb na ma ea

/-- The encoding with the opposite sign. -/
def neg (fmt : Format) (a : Nat) : Nat :=
  a ^^^ fmt.signBit

/-- The difference of two encodings. A NaN subtrahend keeps its sign. -/
def sub (fmt : Format) (a b : Nat) : Nat :=
  if fmt.isNaN a || fmt.isNaN b then fmt.propagateNaN a b
  else add fmt a (neg fmt b)

/-! ## §2 Multiplication -/

/-- The product of two 128-bit words as the high and the low word, from 64-bit halves. -/
def mulWide (a b : Nat) : Nat × Nat :=
  let half := 2 ^ (64 : Nat)
  let (a1, a0) := (a / half, a % half)
  let (b1, b0) := (b / half, b % half)
  let mid := a0 * b0 / half + a0 * b1 % half + a1 * b0 % half
  (a1 * b1 + a0 * b1 / half + a1 * b0 / half + mid / half, a0 * b0 % half + mid % half * half)

/-- The product of two encodings. A product wider than one word gives up its low bits to the
remainder. -/
def mul (fmt : Format) (a b : Nat) : Nat :=
  match fmt.unpack a, fmt.unpack b with
  | (_, .nan), _ | _, (_, .nan) => fmt.propagateNaN a b
  | (_, .inf), (_, .zero) | (_, .zero), (_, .inf) => fmt.defaultNaN
  | (na, .inf), (nb, _) | (na, _), (nb, .inf) => fmt.infinity (na != nb)
  | (na, .zero), (nb, _) | (na, _), (nb, .zero) => fmt.zero (na != nb)
  | (na, .finite ma ea), (nb, .finite mb eb) =>
    let (high, low) := mulWide ma mb
    if high = 0 then roundPack fmt (na != nb) (ea + eb) low false
    else
      let shift := bitWidth high + 1
      roundPack fmt (na != nb) (ea + eb + shift) (high * 2 ^ (128 - shift) + low / 2 ^ shift)
        (low % 2 ^ shift != 0)

/-! ## §3 Division -/

/-- A significand of `fracBits + 1` bits for the same number. -/
def normalize (fmt : Format) (sig : Nat) (scale : Int) : Nat × Int :=
  let shift := fmt.fracBits + 1 - bitWidth sig
  (sig * 2 ^ shift, scale - shift)

/-- Restoring division: each step brings down one bit of the quotient. -/
def divideSteps (divisor : Nat) : (steps rem quot : Nat) → Nat × Nat
  | 0, rem, quot => (quot, rem)
  | steps + 1, rem, quot =>
    if divisor ≤ rem then divideSteps divisor steps ((rem - divisor) * 2) (quot * 2 + 1)
    else divideSteps divisor steps (rem * 2) (quot * 2)

/-- The quotient of two encodings. -/
def div (fmt : Format) (a b : Nat) : Nat :=
  match fmt.unpack a, fmt.unpack b with
  | (_, .nan), _ | _, (_, .nan) => fmt.propagateNaN a b
  | (_, .inf), (_, .inf) | (_, .zero), (_, .zero) => fmt.defaultNaN
  | (na, .inf), (nb, _) | (na, _), (nb, .zero) => fmt.infinity (na != nb)
  | (na, _), (nb, .inf) | (na, .zero), (nb, _) => fmt.zero (na != nb)
  | (na, .finite ma ea), (nb, .finite mb eb) =>
    let (ma, ea) := normalize fmt ma ea
    let (mb, eb) := normalize fmt mb eb
    -- three bits beyond the precision of the result
    let steps := fmt.fracBits + 3
    let (quot, rem) := divideSteps mb (steps + 1) ma 0
    roundPack fmt (na != nb) (ea - eb - steps) quot (rem != 0)

/-! ## §4 Square root -/

/-- The number of base-4 digit positions, at most `count`, that `n` reaches. -/
def rootPositions : (count n : Nat) → Nat
  | 0, _ => 0
  | count + 1, n => if n < 4 ^ count then rootPositions count n else count + 1

/-- Digit-by-digit square root. While positions remain, `root` holds the digits found so far moved
up by the open positions, and `rem` what is left of the radicand. -/
def rootSteps : (positions rem root : Nat) → Nat × Nat
  | 0, rem, root => (root, rem)
  | k + 1, rem, root =>
    if root + 4 ^ k ≤ rem then rootSteps k (rem - (root + 4 ^ k)) (root / 2 + 4 ^ k)
    else rootSteps k rem (root / 2)

/-- The integer square root of a 128-bit word, and whether a remainder is left. -/
def isqrt (n : Nat) : Nat × Bool :=
  let (root, rem) := rootSteps (rootPositions 64 n) n 0
  (root, rem != 0)

/-- The square root of an encoding, for formats up to double precision. -/
def sqrt (fmt : Format) (a : Nat) : Nat :=
  match fmt.unpack a with
  | (_, .nan) => fmt.quiet a
  | (_, .zero) => a
  | (true, _) => fmt.defaultNaN
  | (false, .inf) => a
  | (false, .finite sig scale) =>
    let (sig, scale) := if scale % 2 = 0 then (sig, scale) else (sig * 2, scale - 1)
    -- widen by an even number of bits, so that the root keeps more than sixty
    let widen := (126 - bitWidth sig) / 2 * 2
    let (root, remainder) := isqrt (sig * 2 ^ widen)
    roundPack fmt false ((scale - widen) / 2) root remainder

end MeteredWasm.SoftFloat
