import MeteredWasm.Proofs.SoftFloat.SquareRoot
import MeteredWasm.Proofs.SoftFloat.Checked.Rounding

/-!
# Square roots in machine words

The machine keeps the weight of a digit, a power of four, instead of the number of the positions that
are open, and both of its loops go on until the weight has been shifted out on the right. What the
root still can grow by is never more than the open positions leave room for.
-/

namespace MeteredWasm.SoftFloat.Checked

-- Powers of numbers are the core library's, as in the formats themselves.
attribute [local instance (high)] instPowNat

open Format

/-! ## §1 Digit by digit -/

theorem shiftRight_two_lt {weight : Nat} (h : weight ≠ 0) : weight >>> 2 < weight := by
  rw [Nat.shiftRight_eq_div_pow]
  omega

/-- The first weight, of those from a given one down, that a number reaches. -/
def firstWeight (n weight : Nat) : Nat :=
  -- shifts by one or two places are never too wide
  if n < weight then firstWeight n (weight >>> 2) else weight
termination_by weight
decreasing_by exact shiftRight_two_lt (by omega)

/-- The digits of a root from a weight down, and what they leave of the radicand. -/
def rootLoop (weight rem root : Nat) : Option (Nat × Nat) := do
  if weight = 0 then return (root, rem)
  else
    let digit ← addWord root weight
    if digit ≤ rem then
      rootLoop (weight >>> 2) (← subWord rem digit) (← addWord (root >>> 1) weight)
    else rootLoop (weight >>> 2) rem (root >>> 1)
termination_by weight
decreasing_by all_goals exact shiftRight_two_lt (by assumption)

/-- The integer square root of a word, and whether a remainder is left. -/
def isqrt (n : Nat) : Option (Nat × Bool) := do
  let (root, rem) ← rootLoop (firstWeight n (← shiftLeft 1 126)) n 0
  return (root, rem != 0)

/-- The weight of the highest digit when so many positions are open. -/
def weightOf : (positions : Nat) → Nat
  | 0 => 0
  | k + 1 => 4 ^ k

theorem weightOf_shiftRight (k : Nat) : weightOf (k + 1) >>> 2 = weightOf k := by
  rw [Nat.shiftRight_eq_div_pow]
  cases k with
  | zero => rfl
  | succ k =>
    rw [weightOf, weightOf, Nat.pow_succ]
    exact Nat.mul_div_cancel _ (by decide)

theorem firstWeight_eq (count n : Nat) :
    firstWeight n (weightOf count) = weightOf (rootPositions count n) := by
  induction count with
  | zero => rw [weightOf, firstWeight, if_neg (Nat.not_lt_zero n), rootPositions, weightOf]
  | succ count ih =>
    rw [firstWeight, rootPositions, weightOf_shiftRight, ih, weightOf]
    split <;> rfl

theorem rootPositions_le (count n : Nat) : rootPositions count n ≤ count := by
  induction count with
  | zero => exact Nat.le_refl 0
  | succ count ih =>
    rw [rootPositions]
    split <;> omega

/-- With `positions` digits to come the root stays that much below the limit of a word. -/
theorem rootLoop_eq (positions : Nat) {rem root : Nat} (hle : positions ≤ 64)
    (hroom : root + 4 ^ positions ≤ 2 ^ (64 + positions)) :
    rootLoop (weightOf positions) rem root = some (rootSteps positions rem root) := by
  induction positions generalizing rem root with
  | zero => rw [rootLoop, if_pos (by rfl), rootSteps, Option.pure_def]
  | succ k ih =>
    have hpower : 4 ^ (k + 1) = 4 * 4 ^ k := Nat.pow_succ'
    have hlimit : 2 ^ (64 + (k + 1)) = 2 * 2 ^ (64 + k) := Nat.pow_succ'
    have hword : 2 ^ (64 + k) ≤ 2 ^ (127 : Nat) := Nat.pow_le_pow_right Nat.two_pos (by omega)
    have hpos : 0 < 4 ^ k := Nat.pow_pos (by decide)
    have hhalf : root >>> 1 = root / 2 := by rw [Nat.shiftRight_eq_div_pow, Nat.pow_one]
    have hweight : weightOf (k + 1) = 4 ^ k := rfl
    have hdigit : addWord root (4 ^ k) = some (root + 4 ^ k) := addWord_eq (by omega)
    rw [rootLoop, weightOf_shiftRight, hweight, if_neg hpos.ne', hdigit, some_bind, rootSteps,
      hhalf]
    by_cases hreached : root + 4 ^ k ≤ rem
    · have hroot : addWord (root / 2) (4 ^ k) = some (root / 2 + 4 ^ k) := addWord_eq (by omega)
      rw [if_pos hreached, if_pos hreached, subWord_eq hreached, some_bind, hroot, some_bind]
      exact ih (by omega) (by omega)
    · rw [if_neg hreached, if_neg hreached]
      exact ih (by omega) (by omega)

theorem isqrt_eq (n : Nat) : isqrt n = some (SoftFloat.isqrt n) := by
  have htop : shiftLeft 1 126 = some (weightOf 64) := shiftLeft_one (by decide)
  have hpositions := rootPositions_le 64 n
  have hroom : 0 + 4 ^ rootPositions 64 n ≤ 2 ^ (64 + rootPositions 64 n) := by
    rw [Nat.zero_add, show 4 = 2 ^ 2 from rfl, ← Nat.pow_mul]
    exact Nat.pow_le_pow_right Nat.two_pos (by omega)
  rw [isqrt, htop, some_bind, firstWeight_eq, rootLoop_eq _ hpositions hroom, some_bind,
    SoftFloat.isqrt, Option.pure_def]

/-- The loops end for every word, without an overflow, at the greatest number whose square is not
above the word, and the flag says whether the word is not a square. -/
theorem isqrt_exact {n : Nat} (hn : n < 2 ^ (128 : Nat)) :
    ∃ root inexact, isqrt n = some (root, inexact) ∧ SoftFloat.isqrt n = (root, inexact) ∧
      root * root ≤ n ∧ n < (root + 1) * (root + 1) ∧
      (inexact = true ↔ root * root ≠ n) := by
  have hroot := SoftFloat.isqrt_eq hn
  refine ⟨Nat.sqrt n, decide (Nat.sqrt n * Nat.sqrt n ≠ n), ?_, hroot, ?_, ?_, ?_⟩
  · rw [isqrt_eq, hroot]
  · exact Nat.sqrt_le n
  · exact Nat.lt_succ_sqrt n
  · exact decide_eq_true_iff

/-- The root of the greatest word, which is one below a square. -/
theorem isqrt_greatest_word :
    2 ^ (128 : Nat) - 1 < 2 ^ (128 : Nat) ∧
      isqrt (2 ^ (128 : Nat) - 1) = some (2 ^ (64 : Nat) - 1, true) := by
  have hlt : 2 ^ (128 : Nat) - 1 < 2 ^ (128 : Nat) := by decide
  have hroot : SoftFloat.isqrt (2 ^ (128 : Nat) - 1) = (2 ^ (64 : Nat) - 1, true) := by
    decide +kernel
  obtain ⟨root, inexact, hmachine, hresult, -⟩ := isqrt_exact hlt
  rw [hroot] at hresult
  rw [hmachine, ← hresult]
  exact ⟨hlt, rfl⟩

/-! ## §2 Roots of encodings -/

/-- The root of a number under an even scale. -/
def packRoot (fmt : Format) (sig : Nat) (scale : Int) : Option Nat := do
  let free ← count? (126 - bitWidth sig)
  -- an even number of bits, so that the scale can be halved
  let widen := free &&& complement 1
  let (root, remainder) ← isqrt (← shiftLeft sig widen)
  let scale ← scale? (scale - widen)
  roundPack fmt false (scale.tdiv 2) root remainder

/-- The square root of an encoding, for formats up to double precision. -/
def sqrt (fmt : Format) (a : Nat) : Option Nat := do
  match (← unpack fmt a) with
  | (_, .nan) => quiet fmt a
  | (_, .zero) => return a
  | (true, _) => defaultNaN fmt
  | (false, .inf) => return a
  | (false, .finite sig scale) =>
    let (sig, scale) ←
      if scale % 2 = 0 then pure (sig, scale)
      else pure (← shiftLeft sig 1, ← scale? (scale - 1))
    packRoot fmt sig scale

section Roots

variable {fmt : Format} (hfmt : fmt ∈ [binary32, binary64, binary128])

include hfmt

theorem packRoot_eq {sig : Nat} {scale : Int} (hsig : sig < 2 ^ (126 : Nat))
    (heven : scale % 2 = 0) (hlow : -17000 ≤ scale) (hhigh : scale ≤ 17000) :
    packRoot fmt sig scale = some (SoftFloat.packRoot fmt sig scale) := by
  have hwidth : bitWidth sig ≤ 126 := bitWidth_le_iff.mpr hsig
  have hcount : count? (126 - (bitWidth sig : Int)) = some (126 - bitWidth sig) :=
    count?_sub (a := 126) hwidth (by omega)
  have hwiden : (126 - bitWidth sig) &&& complement 1 = (126 - bitWidth sig) / 2 * 2 := by
    have hclear := and_complement (a := 126 - bitWidth sig) (i := 1) (by omega)
    rw [Nat.pow_one] at hclear
    rw [hclear]
    omega
  rw [packRoot, SoftFloat.packRoot, hcount, some_bind]
  dsimp only
  rw [hwiden]
  generalize hgeneral : (126 - bitWidth sig) / 2 * 2 = widen
  have hword : sig * 2 ^ widen < 2 ^ (126 : Nat) :=
    mul_two_pow_lt (lt_two_pow_bitWidth sig) (by omega)
  have hshift : shiftLeft sig widen = some (sig * 2 ^ widen) := shiftLeft_eq (by omega) (by omega)
  -- an even scale is halved without a remainder, whatever the division rounds to
  have hhalf : (scale - widen).tdiv 2 = (scale - widen) / 2 :=
    Int.tdiv_eq_ediv_of_dvd (by omega)
  have hroot : (SoftFloat.isqrt (sig * 2 ^ widen)).1 < 2 ^ (128 : Nat) := by
    rw [SoftFloat.isqrt_eq (by omega)]
    have hle := Nat.sqrt_le_self (sig * 2 ^ widen)
    dsimp only
    omega
  simp (disch := omega) only [hshift, isqrt_eq, scale?_eq, some_bind, hhalf]
  exact roundPack_eq hfmt false _ hroot (by omega) (by omega)

theorem sqrt_eq (hdouble : fmt.fracBits ≤ 60) (a : Nat) :
    sqrt fmt a = some (SoftFloat.sqrt fmt a) := by
  rw [sqrt, SoftFloat.sqrt, unpack_eq hfmt, some_bind]
  rcases ha : fmt.unpack a with ⟨_ | _, _ | _ | _ | ⟨sig, scale⟩⟩
  all_goals simp only [quiet_eq hfmt, defaultNaN_eq hfmt, Option.pure_def]
  case false.finite =>
    obtain ⟨-, hlt, hlow, hhigh⟩ := isOperand_of_unpack hfmt ha
    have hprecision : 2 ^ (fmt.fracBits + 1) ≤ 2 ^ (61 : Nat) :=
      Nat.pow_le_pow_right Nat.two_pos (by omega)
    by_cases heven : scale % 2 = 0
    · rw [if_pos heven, if_pos heven, some_bind]
      exact packRoot_eq hfmt (by omega) heven (by omega) (by omega)
    · have hshift : shiftLeft sig 1 = some (sig * 2) := shiftLeft_eq (by omega) (by omega)
      have hscale : scale? (scale - 1) = some (scale - 1) := scale?_eq (by omega) (by omega)
      rw [if_neg heven, if_neg heven, hshift, some_bind, hscale, some_bind, some_bind]
      exact packRoot_eq hfmt (by omega) (by omega) (by omega) (by omega)

end Roots

end MeteredWasm.SoftFloat.Checked
