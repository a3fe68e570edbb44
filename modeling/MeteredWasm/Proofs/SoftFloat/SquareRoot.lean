import Mathlib.Analysis.Real.Sqrt
import MeteredWasm.Proofs.SoftFloat.Rounding
import MeteredWasm.Proofs.SoftFloat.Words
import MeteredWasm.SoftFloat.Arithmetic

/-!
# Square roots are rounded correctly

The digit-by-digit root keeps an equation too: the square of the digits found, with what is left of
the radicand, is the radicand, and less is left than one more in the last digit would take away. So it
ends at the integer square root. The radicand is a word of at least 125 bits under an even scale,
and its root then has more bits than the precision.
-/

namespace MeteredWasm.SoftFloat

-- Powers of numbers are the core library's, as in the formats themselves.
attribute [local instance (high)] instPowNat

open Format
open Wasm (Value)

/-! ## §1 Digit by digit -/

/-- Every number has its highest digit in one of the positions that it reaches. -/
theorem lt_rootPositions {count n : Nat} (h : n < 4 ^ count) : n < 4 ^ rootPositions count n := by
  induction count with
  | zero => exact h
  | succ count ih =>
    rw [rootPositions]
    split
    · rename_i hlt
      exact ih hlt
    · exact h

/-- With the digits found so far moved up by the open positions, root and remainder go on standing
for the radicand, and the remainder does not reach the next digit. -/
theorem rootSteps_spec (positions : Nat) {rem digits : Nat}
    (hrem : rem < (2 * digits + 1) * 4 ^ positions) :
    (rootSteps positions rem (digits * 4 ^ positions)).1 *
            (rootSteps positions rem (digits * 4 ^ positions)).1 +
          (rootSteps positions rem (digits * 4 ^ positions)).2 =
        digits * digits * 4 ^ positions + rem ∧
      (rootSteps positions rem (digits * 4 ^ positions)).2 ≤
        2 * (rootSteps positions rem (digits * 4 ^ positions)).1 := by
  induction positions generalizing rem digits with
  | zero =>
    rw [Nat.pow_zero, Nat.mul_one] at hrem
    rw [Nat.pow_zero, Nat.mul_one, Nat.mul_one]
    exact ⟨rfl, Nat.le_of_lt_succ hrem⟩
  | succ positions ih =>
    have hpower : 4 ^ (positions + 1) = 4 * 4 ^ positions := Nat.pow_succ'
    rw [hpower] at hrem ⊢
    rw [rootSteps]
    have hhalf : digits * (4 * 4 ^ positions) / 2 = 2 * digits * 4 ^ positions := by
      rw [show digits * (4 * 4 ^ positions) = 2 * digits * 4 ^ positions * 2 by ring]
      exact Nat.mul_div_cancel _ Nat.two_pos
    rw [hhalf]
    split
    · -- the next digit is one
      rename_i hle
      obtain ⟨rest, rfl⟩ := Nat.exists_eq_add_of_le hle
      have hrest : rest < (2 * (2 * digits + 1) + 1) * 4 ^ positions := by
        nlinarith
      obtain ⟨hvalue, hbound⟩ := ih hrest
      rw [Nat.add_sub_cancel_left, ← Nat.succ_mul]
      refine ⟨hvalue.trans ?_, hbound⟩
      ring
    · -- the next digit is zero
      rename_i hlt
      have hrest : rem < (2 * (2 * digits) + 1) * 4 ^ positions := by
        nlinarith
      obtain ⟨hvalue, hbound⟩ := ih hrest
      refine ⟨hvalue.trans ?_, hbound⟩
      ring

/-- The root of a word is the integer square root, with a remainder unless the word is a square. -/
theorem isqrt_eq {n : Nat} (hn : n < 2 ^ (128 : Nat)) :
    isqrt n = (Nat.sqrt n, decide (Nat.sqrt n * Nat.sqrt n ≠ n)) := by
  have hpositions : n < (2 * 0 + 1) * 4 ^ rootPositions 64 n := by
    rw [Nat.mul_zero, Nat.zero_add, Nat.one_mul]
    exact lt_rootPositions hn
  obtain ⟨hvalue, hbound⟩ := rootSteps_spec _ hpositions
  rw [Nat.zero_mul, Nat.zero_add] at hvalue
  rw [Nat.zero_mul] at hbound
  rw [isqrt]
  generalize rootSteps (rootPositions 64 n) n 0 = result at *
  obtain ⟨root, rem⟩ := result
  dsimp only at hvalue hbound ⊢
  have hroot : root = Nat.sqrt n := by
    rw [Nat.eq_sqrt]
    constructor
    · omega
    · rw [Nat.succ_mul, Nat.mul_succ]
      omega
  have hflag : (rem != 0) = decide (root * root ≠ n) := by
    rw [Bool.eq_iff_iff, bne_iff_ne, decide_eq_true_iff]
    omega
  rw [← hroot, hflag]

/-! ## §2 Roots of finite numbers -/

variable {fmt : Format}

/-- The root of a word of 125 bits or more, and of a word it stands for under an even scale. -/
theorem rounds_isqrt (hfrac : 0 < fmt.fracBits) (hexp : 0 < fmt.expBits)
    (hword : fmt.fracBits ≤ 60) {n : Nat} (hn : 2 ^ (124 : Nat) ≤ n) (hlt : n < 2 ^ (128 : Nat))
    (scale : Int) :
    fmt.Rounds (√n * 2 ^ scale) (roundPack fmt false scale (isqrt n).1 (isqrt n).2) := by
  have hlow : (Nat.sqrt n : ℝ) ≤ √n := Real.nat_sqrt_le_real_sqrt
  have hhigh : √n < Nat.sqrt n + 1 := Real.real_sqrt_lt_nat_sqrt_succ
  have hwide : fmt.fracBits + 2 ≤ bitWidth (Nat.sqrt n) := by
    have hroot : 2 ^ (62 : Nat) ≤ Nat.sqrt n := by
      rw [Nat.le_sqrt]
      exact hn
    by_contra hnarrow
    have hsmall : Nat.sqrt n < 2 ^ (62 : Nat) := bitWidth_le_iff.mp (by omega)
    omega
  have hflag : decide (Nat.sqrt n * Nat.sqrt n ≠ n) = true ↔ √n - Nat.sqrt n ≠ 0 := by
    rw [decide_eq_true_iff, sub_ne_zero, ne_eq, ne_eq, not_iff_not,
      Real.sqrt_eq_iff_mul_self_eq n.cast_nonneg (Nat.cast_nonneg _), eq_comm]
    norm_cast
  have hrounds := @rounds_roundPack_part fmt scale (Nat.sqrt n) hfrac hexp false _ _ (by omega)
    hwide (sub_nonneg.mpr hlow) (by linarith) hflag
  rw [isqrt_eq hlt]
  rwa [add_sub_cancel, sign, if_neg Bool.false_ne_true, one_mul] at hrounds

/-- The root of a significand under an even scale, from a word that keeps the scale even. -/
def packRoot (fmt : Format) (sig : Nat) (scale : Int) : Nat :=
  roundPack fmt false ((scale - ((126 - bitWidth sig) / 2 * 2 : Nat)) / 2)
    (isqrt (sig * 2 ^ ((126 - bitWidth sig) / 2 * 2))).1
    (isqrt (sig * 2 ^ ((126 - bitWidth sig) / 2 * 2))).2

theorem rounds_packRoot (hfrac : 0 < fmt.fracBits) (hexp : 0 < fmt.expBits)
    (hword : fmt.fracBits ≤ 60) {sig : Nat} (hsig : sig ≠ 0) (hlt : sig < 2 ^ (126 : Nat))
    {scale : Int} (heven : scale % 2 = 0) :
    fmt.Rounds √(sig * 2 ^ scale) (packRoot fmt sig scale) := by
  rw [packRoot]
  have hwidth : bitWidth sig ≤ 126 := bitWidth_le_iff.mpr hlt
  have hpos := bitWidth_pos.mpr hsig
  generalize hwiden : (126 - bitWidth sig) / 2 * 2 = widen
  obtain ⟨half, hhalf⟩ : ∃ half, scale = 2 * half + widen :=
    ⟨(scale - widen) / 2, by omega⟩
  have hroot : √(sig * 2 ^ scale) = √(sig * 2 ^ widen : Nat) * 2 ^ half := by
    have hsquare : (sig * 2 ^ scale : ℝ) = (sig * 2 ^ widen : Nat) * (2 ^ half * 2 ^ half) := by
      rw [← zpow_add₀ two_ne_zero]
      push_cast
      rw [mul_assoc, two_pow_mul_zpow, hhalf]
      congr 2
      ring
    rw [hsquare, Real.sqrt_mul (Nat.cast_nonneg _),
      Real.sqrt_mul_self (zpow_pos two_pos half).le]
  have hscale : (scale - widen) / 2 = half := by omega
  rw [hroot, hscale]
  refine rounds_isqrt hfrac hexp hword ?_ ?_ half
  · exact two_pow_le_mul_two_pow (two_pow_bitWidth_sub_one_le hsig) (by omega)
  · exact mul_two_pow_lt (lt_two_pow_bitWidth sig) (by omega)

/-! ## §3 Roots of encodings -/

namespace Format

/-- `r` is the square root of an encoding. Zeros and the positive infinity are their own roots. -/
structure IsSquareRoot (fmt : Format) (a r : Nat) : Prop where
  nan : fmt.isNaN a → fmt.IsQuieted a r
  zero : fmt.IsZero a → r = a
  infinite : fmt.IsInfinite a → ¬fmt.isNegative a → r = a
  negative : ¬fmt.isNaN a → ¬fmt.IsZero a → fmt.isNegative a → r = fmt.defaultNaN
  finite : fmt.IsFinite a → ¬fmt.IsZero a → ¬fmt.isNegative a → fmt.Rounds √(fmt.value a) r

end Format

variable {a : Nat}

theorem rounds_sqrt (hfrac : 0 < fmt.fracBits) (hexp : 0 < fmt.expBits)
    (hword : fmt.fracBits ≤ 60) (hfinite : fmt.IsFinite a) (hzero : ¬fmt.IsZero a)
    (hsign : ¬fmt.isNegative a) : fmt.Rounds √(fmt.value a) (sqrt fmt a) := by
  rw [Bool.not_eq_true] at hsign
  have hvalue : fmt.value a = fmt.number (fmt.magnitude a) := by
    rw [value, hsign, sign, if_neg Bool.false_ne_true, one_mul]
  rw [hvalue, number, sqrt, unpack_finite hfinite hzero, hsign]
  dsimp only
  have hsig := significand_pos fmt hzero
  have hlt := significand_lt fmt (fmt.magnitude a)
  have hprecision : 2 ^ (fmt.fracBits + 1) ≤ 2 ^ (61 : Nat) :=
    Nat.pow_le_pow_right Nat.two_pos (by omega)
  generalize fmt.significand (fmt.magnitude a) = sig at *
  generalize fmt.minScale + fmt.offset (fmt.magnitude a) = scale
  split
  · rename_i heven
    exact rounds_packRoot hfrac hexp hword hsig (by omega) heven
  · rename_i hodd
    have hdouble : (sig * 2 ^ scale : ℝ) = (sig * 2 : Nat) * 2 ^ (scale - 1) := by
      rw [zpow_sub_one₀ two_ne_zero]
      push_cast
      ring
    rw [hdouble]
    exact rounds_packRoot hfrac hexp hword (by omega) (by omega) (by omega)

theorem isSquareRoot_sqrt (hfrac : 0 < fmt.fracBits) (hexp : 0 < fmt.expBits)
    (hword : fmt.fracBits ≤ 60) (a : Nat) : fmt.IsSquareRoot a (sqrt fmt a) where
  nan := by
    intro hnan
    rw [sqrt, unpack_nan hnan]
    exact isQuieted_quiet hfrac hnan
  zero := by
    intro hzero
    rw [sqrt, unpack_zero (hzero.isFinite hexp) hzero]
  infinite := by
    intro hinfinite hsign
    rw [Bool.not_eq_true] at hsign
    rw [sqrt, unpack_infinite hinfinite, hsign]
  negative := by
    intro hnan hzero hsign
    rcases finite_or_infinite hnan with hfinite | hinfinite
    · rw [sqrt, unpack_finite hfinite hzero, hsign]
    · rw [sqrt, unpack_infinite hinfinite, hsign]
  finite := rounds_sqrt hfrac hexp hword

theorem sqrt_lt (hfrac : 0 < fmt.fracBits) (hexp : 0 < fmt.expBits) (hword : fmt.fracBits ≤ 60)
    (ha : a < 2 ^ fmt.width) : sqrt fmt a < 2 ^ fmt.width := by
  have hroot := isSquareRoot_sqrt hfrac hexp hword a
  by_cases hzero : fmt.IsZero a
  · rwa [hroot.zero hzero]
  by_cases hnan : fmt.isNaN a
  · rw [sqrt, unpack_nan hnan]
    exact quiet_lt ha
  by_cases hsign : fmt.isNegative a
  · rw [hroot.negative hnan hzero hsign]
    exact defaultNaN_lt hfrac
  rcases finite_or_infinite hnan with hfinite | hinfinite
  · exact (hroot.finite hfinite hzero hsign).encoding
  · rwa [hroot.infinite hinfinite hsign]

/-- In both formats, square roots are the exact ones rounded once, to nearest and ties to even, and
the root that an instruction leaves is that of its operand. -/
theorem sqrt_correctly_rounded (w : FloatWidth) :
    (∀ a, w.format.IsSquareRoot a (sqrt w.format a)) ∧
      ∀ v a, w.bits? v = some a →
        (Operator.unary w .sqrt).Leaves [v] w (w.format.IsSquareRoot a) := by
  have hfrac : 0 < w.format.fracBits := by cases w <;> decide
  have hexp : 0 < w.format.expBits := by cases w <;> decide
  have hword : w.format.fracBits ≤ 60 := by cases w <;> decide
  have hroot := isSquareRoot_sqrt hfrac hexp hword
  refine ⟨hroot, ?_⟩
  intro v a hbits
  have heval : (Operator.unary w .sqrt).eval [v] = .ok (w.value (sqrt w.format a)) := by
    rw [Operator.eval, hbits]
    rfl
  exact .of_eval heval (sqrt_lt hfrac hexp hword (FloatWidth.bits?_lt hbits)) (hroot a)

/-- The least positive number is an odd power of two, `2 ^ (-149)`. -/
theorem sqrt_least :
    (Operator.unary .single .sqrt).Leaves [.f32 1] .single (binary32.IsSquareRoot 1) ∧
      (Operator.unary .single .sqrt).eval [.f32 1] = .ok (.f32 0x1A3504F3) :=
  ⟨(sqrt_correctly_rounded .single).2 (.f32 1) 1 rfl, by decide +kernel⟩

end MeteredWasm.SoftFloat
