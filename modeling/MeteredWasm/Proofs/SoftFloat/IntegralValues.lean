import Mathlib.Algebra.Order.Archimedean.Real.Basic
import MeteredWasm.SoftFloat.Integral
import MeteredWasm.Proofs.SoftFloat.Widening

/-!
# Integral values

Rounding to an integral value gives the encoding of an integer next to the number, which one the
direction says. A number that is not an integer lies between two of them; both are numbers of the
format, so that nothing is lost.
-/

namespace MeteredWasm.SoftFloat

-- Powers of numbers are the core library's, as in the formats themselves.
attribute [local instance (high)] instPowNat

open Format (sign)

/-! ## §1 Integers next to a number -/

/-- A number without what stands behind its point. -/
noncomputable def truncated (x : ℝ) : ℤ :=
  if x < 0 then ⌈x⌉ else ⌊x⌋

/-- No integer is nearer to `x`, and where another one is equally near, this is the even one. -/
structure IsNearestInt (x : ℝ) (n : ℤ) : Prop where
  nearest : ∀ k : ℤ, |x - n| ≤ |x - k|
  even : ∀ k : ℤ, k ≠ n → |x - k| = |x - n| → n % 2 = 0

/-- `n` is the integer that is taken for `x`. -/
def Direction.Takes (d : Direction) (x : ℝ) (n : ℤ) : Prop :=
  match d with
  | .towardZero => n = truncated x
  | .down => n = ⌊x⌋
  | .up => n = ⌈x⌉
  | .nearest => IsNearestInt x n

variable {x : ℝ} {n : ℤ}

theorem truncated_sign_mul (negative : Bool) (hx : 0 ≤ x) :
    truncated (sign negative * x) = if negative then -⌊x⌋ else ⌊x⌋ := by
  cases negative with
  | false =>
    rw [sign, if_neg Bool.false_ne_true, one_mul, truncated, if_neg (not_lt.mpr hx)]
    rfl
  | true =>
    rw [sign, if_pos rfl, neg_one_mul, if_pos rfl]
    rcases hx.eq_or_lt with rfl | hpos
    · rw [neg_zero, truncated, if_neg (lt_irrefl _), Int.floor_zero, neg_zero]
    · rw [truncated, if_pos (neg_neg_of_pos hpos), Int.ceil_neg]

/-- Half a step to an integer is enough. -/
theorem isNearestInt_of_half (h : |x - n| ≤ 1 / 2) (heven : |x - n| = 1 / 2 → n % 2 = 0) :
    IsNearestInt x n := by
  -- every other integer is a whole step away from `n`, so at least half of one from `x`
  have hother (k : ℤ) (hk : k ≠ n) : 1 / 2 ≤ |x - k| := by
    have hint : (1 : ℤ) ≤ |n - k| := Int.one_le_abs (sub_ne_zero.mpr hk.symm)
    have hreal : (1 : ℝ) ≤ |(n : ℝ) - k| := by exact_mod_cast hint
    have htriangle := abs_sub_le (n : ℝ) x k
    rw [abs_sub_comm (n : ℝ) x] at htriangle
    linarith
  constructor
  · intro k
    by_cases hk : k = n
    · rw [hk]
    · exact h.trans (hother k hk)
  · intro k hk hsame
    exact heven (le_antisymm h (hsame ▸ hother k hk))

theorem IsNearestInt.neg (h : IsNearestInt x n) : IsNearestInt (-x) (-n) := by
  have hdist (k : ℤ) : |-x - (-k : ℤ)| = |x - k| := by
    rw [Int.cast_neg, neg_sub_neg, abs_sub_comm]
  constructor
  · intro k
    rw [hdist, ← neg_neg k, hdist]
    exact h.nearest (-k)
  · intro k hk hsame
    rw [hdist, ← neg_neg k, hdist] at hsame
    have heven := h.even (-k) (fun h => hk (by rw [← h, neg_neg])) hsame
    omega

theorem Direction.takes_intCast (d : Direction) (n : ℤ) : d.Takes n n := by
  cases d with
  | towardZero =>
    show n = truncated n
    rw [truncated, Int.ceil_intCast, Int.floor_intCast, ite_self]
  | down => exact (Int.floor_intCast n).symm
  | up => exact (Int.ceil_intCast n).symm
  | nearest =>
    apply isNearestInt_of_half
    · rw [sub_self, abs_zero]
      positivity
    · intro h
      norm_num at h

/-- A number between an integer and the next. The flag says whether the upper one of both is taken
for the nearest. -/
structure IsBetween (x : ℝ) (q : Nat) (upper : Bool) : Prop where
  above : q < x
  below : x < q + 1
  upper_iff : upper = true ↔ q + 1 / 2 < x ∨ x = q + 1 / 2 ∧ q % 2 = 1

namespace IsBetween

variable {q : Nat} {upper : Bool}

theorem pos (h : IsBetween x q upper) : 0 < x :=
  (Nat.cast_nonneg q).trans_lt h.above

theorem floor (h : IsBetween x q upper) : ⌊x⌋ = q :=
  Int.floor_eq_iff.mpr ⟨by exact_mod_cast h.above.le, by exact_mod_cast h.below⟩

theorem ceil (h : IsBetween x q upper) : ⌈x⌉ = q + 1 :=
  Int.ceil_eq_iff.mpr ⟨by push_cast; linarith [h.above], by push_cast; exact h.below.le⟩

theorem not_integer (h : IsBetween x q upper) (n : ℤ) : x ≠ n := by
  rintro rfl
  have habove : (q : ℤ) < n := by exact_mod_cast h.above
  have hbelow : n < (q : ℤ) + 1 := by exact_mod_cast h.below
  omega

theorem isNearestInt (h : IsBetween x q upper) :
    IsNearestInt x (if upper then q + 1 else q : Nat) := by
  have habove := h.above
  have hbelow := h.below
  by_cases hupper : upper = true
  · rw [if_pos hupper]
    have hdist : |x - (q + 1 : Nat)| = q + 1 - x := by
      rw [abs_sub_comm, Nat.cast_succ, abs_of_pos (sub_pos.mpr hbelow)]
    rcases h.upper_iff.mp hupper with hhalf | ⟨htie, hodd⟩
    · apply isNearestInt_of_half
      · rw [Int.cast_natCast, hdist]
        linarith
      · intro hexact
        rw [Int.cast_natCast, hdist] at hexact
        linarith
    · apply isNearestInt_of_half
      · rw [Int.cast_natCast, hdist]
        linarith
      · intro _
        omega
  · rw [if_neg hupper]
    rw [h.upper_iff, not_or, not_and] at hupper
    obtain ⟨hhalf, heven⟩ := hupper
    have hdist : |x - (q : Nat)| = x - q := abs_of_pos (sub_pos.mpr habove)
    apply isNearestInt_of_half
    · rw [Int.cast_natCast, hdist]
      linarith
    · intro htie
      rw [Int.cast_natCast, hdist] at htie
      have hodd := heven (by linarith)
      omega

/-- Which one of both integers is taken for the number, of either sign. -/
theorem takes (h : IsBetween x q upper) (d : Direction) (negative : Bool) :
    ∃ n : ℤ, d.Takes (sign negative * x) n ∧
      sign negative * (if d.away negative upper then q + 1 else q : Nat) = n := by
  have hpos := h.pos
  cases negative with
  | false =>
    simp only [sign, Bool.false_eq_true, if_false, one_mul]
    refine ⟨(if d.away false upper then q + 1 else q : Nat), ?_, rfl⟩
    cases d with
    | towardZero =>
      have htruncated := truncated_sign_mul false hpos.le
      rw [sign, if_neg Bool.false_ne_true, one_mul, if_neg Bool.false_ne_true, h.floor] at htruncated
      exact htruncated.symm
    | down => exact h.floor.symm
    | up => exact h.ceil.symm
    | nearest => exact h.isNearestInt
  | true =>
    -- below zero, the directions down and up change their places
    simp only [sign, if_true, neg_one_mul]
    refine ⟨-(if d.away true upper then q + 1 else q : Nat), ?_, by push_cast; rfl⟩
    cases d with
    | towardZero =>
      have htruncated := truncated_sign_mul true hpos.le
      rw [sign, if_pos rfl, neg_one_mul, if_pos rfl, h.floor] at htruncated
      exact htruncated.symm
    | down =>
      show -((q : ℤ) + 1) = ⌊-x⌋
      rw [Int.floor_neg, h.ceil]
    | up =>
      show -(q : ℤ) = ⌈-x⌉
      rw [Int.ceil_neg, h.floor]
    | nearest => exact h.isNearestInt.neg

end IsBetween

/-! ## §2 The integers next to a magnitude -/

namespace Format

variable {fmt : Format} {m : Nat}

theorem bias_of_mem (h : fmt ∈ [binary32, binary64, binary128]) :
    2 ≤ fmt.bias ∧ fmt.bias % 2 = 1 ∧ fmt.bias + fmt.fracBits < fmt.expMax := by
  revert h
  revert fmt
  decide

/-- A magnitude with a leading one, in its parts. -/
theorem normal_parts (hexp : 1 ≤ m / 2 ^ fmt.fracBits) :
    m = (m / 2 ^ fmt.fracBits - 1) * 2 ^ fmt.fracBits + fmt.significand m ∧
      2 ^ fmt.fracBits ≤ fmt.significand m ∧ fmt.significand m < 2 ^ (fmt.fracBits + 1) := by
  refine ⟨(place_self m).symm, ?_, significand_lt fmt m⟩
  have hge : 2 ^ fmt.fracBits ≤ m := (Nat.one_le_div_iff (Nat.two_pow_pos _)).mp hexp
  rw [significand, if_neg (Nat.not_lt.mpr hge)]
  exact Nat.le_add_right _ _

/-- Numbers with large exponents have no bits behind the point. -/
theorem number_large (hexp : fmt.bias + fmt.fracBits ≤ m / 2 ^ fmt.fracBits)
    (hbias : 1 ≤ fmt.bias) : ∃ k : Nat, fmt.number m = k := by
  have hone : 1 ≤ m / 2 ^ fmt.fracBits := by omega
  obtain ⟨hm, hk, hk'⟩ := normal_parts hone
  obtain ⟨shift, hshift⟩ := Nat.exists_eq_add_of_le hexp
  have hscale : ((m / 2 ^ fmt.fracBits : Nat) : ℤ) - fmt.bias - fmt.fracBits = shift := by omega
  refine ⟨fmt.significand m * 2 ^ shift, ?_⟩
  have hnumber := number_exponent hone hk hk'.le
  rw [← hm, hscale, zpow_natCast] at hnumber
  rw [hnumber]
  push_cast
  rfl

/-- Numbers below one lie between zero and one, and above one half only with the exponent of one
half and a fraction. -/
theorem isBetween_small (hm : m ≠ 0) (hexp : m / 2 ^ fmt.fracBits < fmt.bias)
    (hbias : 2 ≤ fmt.bias) :
    IsBetween (fmt.number m) 0
      (m / 2 ^ fmt.fracBits + 1 == fmt.bias && m % 2 ^ fmt.fracBits != 0) := by
  have hone : fmt.number (fmt.bias * 2 ^ fmt.fracBits) = 1 := by
    rw [number_power (by omega), sub_self, zpow_zero]
  have hhalf : fmt.number ((fmt.bias - 1) * 2 ^ fmt.fracBits) = 2⁻¹ := by
    rw [number_power (by omega), show ((fmt.bias - 1 : Nat) : ℤ) - fmt.bias = -1 by omega,
      zpow_neg_one]
  have hlt : m < fmt.bias * 2 ^ fmt.fracBits := (Nat.div_lt_iff_lt_mul (Nat.two_pow_pos _)).mp hexp
  refine ⟨?_, ?_, ?_⟩
  · rw [Nat.cast_zero, ← number_zero fmt]
    exact number_strictMono fmt (Nat.pos_of_ne_zero hm)
  · rw [Nat.cast_zero, zero_add, ← hone]
    exact number_strictMono fmt hlt
  · -- one half itself goes to zero, the even one, so only what is above counts
    have habove : (0 : Nat) + 1 / 2 < fmt.number m ↔ (fmt.bias - 1) * 2 ^ fmt.fracBits < m := by
      rw [Nat.cast_zero, zero_add, one_div, ← hhalf, (number_strictMono fmt).lt_iff_lt]
    have hsplit := Nat.div_add_mod' m (2 ^ fmt.fracBits)
    have hmod := Nat.mod_lt m (Nat.two_pow_pos fmt.fracBits)
    simp only [Bool.and_eq_true, beq_iff_eq, bne_iff_ne, Nat.zero_mod, zero_ne_one, and_false,
      or_false]
    rw [habove]
    constructor
    · rintro ⟨hlast, hfraction⟩
      rw [show fmt.bias - 1 = m / 2 ^ fmt.fracBits by omega]
      omega
    · intro hgt
      have hle : fmt.bias - 1 ≤ m / 2 ^ fmt.fracBits :=
        (Nat.le_div_iff_mul_le (Nat.two_pow_pos _)).mpr hgt.le
      have hlast : m / 2 ^ fmt.fracBits = fmt.bias - 1 := by omega
      rw [hlast] at hsplit
      omega

/-- Where the point is among the bits of the significand: without the bits behind the point, and one
bit above them further, the numbers are integers. -/
theorem number_around {low : Nat} (hexp : fmt.bias ≤ m / 2 ^ fmt.fracBits)
    (hlow : m / 2 ^ fmt.fracBits + low = fmt.bias + fmt.fracBits) (hbias : fmt.bias % 2 = 1) :
    ∃ q : Nat, fmt.number (m - m % 2 ^ low) = q ∧
      fmt.number (m - m % 2 ^ low + 2 ^ low) = (q + 1 : Nat) ∧ m / 2 ^ low % 2 = q % 2 ∧
      fmt.number m = q + (m % 2 ^ low : Nat) / 2 ^ low := by
  have hone : 1 ≤ m / 2 ^ fmt.fracBits := by omega
  obtain ⟨hm, hk, hk'⟩ := normal_parts hone
  generalize m / 2 ^ fmt.fracBits = exp at *
  generalize fmt.significand m = k at *
  obtain ⟨shift, hshift⟩ : ∃ shift, fmt.fracBits = low + shift :=
    Nat.exists_eq_add_of_le (by omega)
  have hunit : 0 < 2 ^ low := Nat.two_pow_pos low
  have hpower : 2 ^ fmt.fracBits = 2 ^ low * 2 ^ shift := by rw [hshift, Nat.pow_add]
  have hplace : m = 2 ^ low * ((exp - 1) * 2 ^ shift) + k := by
    rw [hm, hpower]
    ring
  have hmod : m % 2 ^ low = k % 2 ^ low := by rw [hplace, Nat.mul_add_mod]
  have hdiv : m / 2 ^ low = (exp - 1) * 2 ^ shift + k / 2 ^ low := by
    rw [hplace, Nat.mul_add_div hunit]
  have hsplit := Nat.div_add_mod k (2 ^ low)
  -- the significand without its last bits still has its leading one, and the next is no longer
  have hq : 2 ^ fmt.fracBits ≤ 2 ^ low * (k / 2 ^ low) := by
    rw [hpower] at hk ⊢
    exact Nat.mul_le_mul_left _ ((Nat.le_div_iff_mul_le hunit).mpr (by rwa [Nat.mul_comm]))
  have hq' : 2 ^ low * (k / 2 ^ low + 1) ≤ 2 ^ (fmt.fracBits + 1) := by
    rw [Nat.pow_succ, hpower, Nat.mul_assoc] at hk' ⊢
    exact Nat.mul_le_mul_left _ (Nat.div_lt_of_lt_mul hk')
  have hscale : (exp : ℤ) - fmt.bias - fmt.fracBits = -(low : ℤ) := by omega
  have hnumber {k : Nat} (hk : 2 ^ fmt.fracBits ≤ k) (hk' : k ≤ 2 ^ (fmt.fracBits + 1)) :
      fmt.number ((exp - 1) * 2 ^ fmt.fracBits + k) = k / 2 ^ low := by
    rw [number_exponent hone hk hk', hscale, zpow_neg, zpow_natCast, div_eq_mul_inv]
  have hne : (2 ^ low : ℝ) ≠ 0 := pow_ne_zero _ two_ne_zero
  refine ⟨k / 2 ^ low, ?_, ?_, ?_, ?_⟩
  · have hlower : m - m % 2 ^ low = (exp - 1) * 2 ^ fmt.fracBits + 2 ^ low * (k / 2 ^ low) := by
      omega
    rw [hlower, hnumber hq (by omega), Nat.cast_mul, Nat.cast_pow, Nat.cast_ofNat,
      mul_div_cancel_left₀ _ hne]
  · have hupper : m - m % 2 ^ low + 2 ^ low =
        (exp - 1) * 2 ^ fmt.fracBits + 2 ^ low * (k / 2 ^ low + 1) := by
      rw [Nat.mul_succ]
      omega
    rw [hupper, hnumber (by omega) hq', Nat.cast_mul, Nat.cast_pow, Nat.cast_ofNat,
      mul_div_cancel_left₀ _ hne]
  · -- the exponent does not change the parity, also where the point is behind the leading one
    have heven : (exp - 1) * 2 ^ shift % 2 = 0 := by
      cases shift with
      | zero => omega
      | succ shift => rw [Nat.pow_succ, ← Nat.mul_assoc, Nat.mul_mod_left]
    omega
  · have hreal : (k : ℝ) = 2 ^ low * (k / 2 ^ low : Nat) + (k % 2 ^ low : Nat) := by
      exact_mod_cast hsplit.symm
    rw [hm, hnumber hk hk'.le, hreal, add_div, mul_div_cancel_left₀ _ hne, ← hm, hmod]

/-- A number with bits behind the point lies between two integers. -/
theorem isBetween_around {low q : Nat} (hlow : 1 ≤ low) (hparity : m / 2 ^ low % 2 = q % 2)
    (hnumber : fmt.number m = q + (m % 2 ^ low : Nat) / 2 ^ low) (hfraction : m % 2 ^ low ≠ 0) :
    IsBetween (fmt.number m) q (decide (2 ^ (low - 1) < m % 2 ^ low) ||
      (m % 2 ^ low == 2 ^ (low - 1) && m / 2 ^ low % 2 == 1)) := by
  have hlt := Nat.mod_lt m (Nat.two_pow_pos low)
  generalize m % 2 ^ low = fraction at *
  obtain ⟨half, rfl⟩ := Nat.exists_eq_add_of_le' hlow
  rw [Nat.add_sub_cancel]
  have hhalf : (0 : ℝ) < 2 ^ half := pow_pos two_pos _
  have hunit : (2 : ℝ) ^ (half + 1) = 2 * 2 ^ half := pow_succ' 2 half
  have hpos : (0 : ℝ) < fraction := Nat.cast_pos.mpr (Nat.pos_of_ne_zero hfraction)
  have hreal : (fraction : ℝ) < 2 * 2 ^ half := by
    rw [← hunit]
    exact_mod_cast hlt
  rw [hunit] at hnumber
  have habove : q + 1 / 2 < fmt.number m ↔ 2 ^ half < fraction := by
    rw [hnumber, add_lt_add_iff_left, lt_div_iff₀ (by positivity), ← mul_assoc, one_div,
      inv_mul_cancel₀ two_ne_zero, one_mul]
    exact_mod_cast Iff.rfl
  have htie : fmt.number m = q + 1 / 2 ↔ fraction = 2 ^ half := by
    rw [hnumber, add_right_inj, div_eq_iff (by positivity), ← mul_assoc, one_div,
      inv_mul_cancel₀ two_ne_zero, one_mul]
    exact_mod_cast Iff.rfl
  refine ⟨?_, ?_, ?_⟩
  · rw [hnumber]
    exact lt_add_of_pos_right _ (by positivity)
  · rw [hnumber, add_lt_add_iff_left, div_lt_one (by positivity)]
    exact hreal
  · rw [habove, htie, hparity]
    simp

/-- One more bit behind the leading one does not lead to the infinities. -/
theorem add_lt_infinityMagnitude {low : Nat} (hlow : low ≤ fmt.fracBits)
    (hexp : m / 2 ^ fmt.fracBits + 2 ≤ fmt.expMax) : m + 2 ^ low < fmt.infinityMagnitude := by
  have hle : 2 ^ low ≤ 2 ^ fmt.fracBits := Nat.pow_le_pow_right Nat.two_pos hlow
  have hlt := Nat.lt_mul_of_div_lt (Nat.lt_succ_self (m / 2 ^ fmt.fracBits))
    (Nat.two_pow_pos fmt.fracBits)
  have hmax := Nat.mul_le_mul_left (2 ^ fmt.fracBits) hexp
  rw [infinityMagnitude, Nat.mul_comm]
  rw [Nat.mul_add] at hmax
  rw [Nat.succ_mul, Nat.mul_comm] at hlt
  omega

/-! ## §3 Rounding -/

/-- `r` is `a`, rounded to an integral value in a direction. -/
structure IsIntegral (fmt : Format) (d : Direction) (a r : Nat) : Prop where
  encoding : r < 2 ^ fmt.width
  negative : fmt.isNegative r = fmt.isNegative a
  finite : fmt.IsFinite a →
    fmt.IsFinite r ∧ ∃ n : ℤ, d.Takes (fmt.value a) n ∧ fmt.value r = n
  integral : fmt.IsFinite a → (∃ n : ℤ, fmt.value a = n) → r = a
  other : ¬fmt.IsFinite a → r = a

variable {a : Nat}

theorem roundToIntegral_other (h : ¬fmt.IsFinite a) (d : Direction) :
    roundToIntegral fmt a d = a := by
  unfold roundToIntegral
  by_cases hnan : fmt.isNaN a
  · rw [unpack_nan hnan]
  · rw [unpack_infinite ((finite_or_infinite hnan).resolve_left h)]

section Finite

variable (hfinite : fmt.IsFinite a) (d : Direction)

include hfinite

theorem roundToIntegral_zero (hzero : fmt.IsZero a) : roundToIntegral fmt a d = a := by
  unfold roundToIntegral
  rw [unpack_zero hfinite hzero]

theorem roundToIntegral_large (hzero : ¬fmt.IsZero a)
    (hexp : fmt.bias + fmt.fracBits ≤ fmt.exponent a) : roundToIntegral fmt a d = a := by
  unfold roundToIntegral
  rw [unpack_finite hfinite hzero]
  exact if_pos hexp

theorem roundToIntegral_small (hzero : ¬fmt.IsZero a) (hexp : fmt.exponent a < fmt.bias) :
    roundToIntegral fmt a d = fmt.signed (fmt.isNegative a)
      (if d.away (fmt.isNegative a)
        (fmt.exponent a + 1 == fmt.bias && fmt.fraction a != 0) then fmt.bias * 2 ^ fmt.fracBits
      else 0) := by
  unfold roundToIntegral
  rw [unpack_finite hfinite hzero]
  dsimp only
  rw [if_neg (by omega), if_pos hexp, one, zero]
  split_ifs <;> rfl

/-- The bits behind the point are those of the magnitude, and so is the one before it. -/
theorem roundToIntegral_around (hzero : ¬fmt.IsZero a) (hbits : 0 < fmt.expBits) {low : Nat}
    (ha : a < 2 ^ fmt.width) (hexp : fmt.bias ≤ fmt.exponent a)
    (hlow : fmt.exponent a + low = fmt.bias + fmt.fracBits) (hlow' : 1 ≤ low) :
    roundToIntegral fmt a d =
      if fmt.magnitude a % 2 ^ low = 0 then a
      else fmt.signed (fmt.isNegative a)
        (if d.away (fmt.isNegative a) (decide (2 ^ (low - 1) < fmt.magnitude a % 2 ^ low) ||
          (fmt.magnitude a % 2 ^ low == 2 ^ (low - 1) && fmt.magnitude a / 2 ^ low % 2 == 1))
        then fmt.magnitude a - fmt.magnitude a % 2 ^ low + 2 ^ low
        else fmt.magnitude a - fmt.magnitude a % 2 ^ low) := by
  have hlt : low < fmt.expBits + fmt.fracBits := by omega
  have hmod : a % 2 ^ low = fmt.magnitude a % 2 ^ low :=
    (Nat.mod_mod_of_dvd _ (Nat.pow_dvd_pow 2 hlt.le)).symm
  have hbit : (a / 2 ^ low % 2 == 1) = (fmt.magnitude a / 2 ^ low % 2 == 1) := by
    have htest := Nat.testBit_mod_two_pow a (fmt.expBits + fmt.fracBits) low
    rw [decide_eq_true hlt, Bool.true_and, Nat.testBit_eq_decide_div_mod_eq,
      Nat.testBit_eq_decide_div_mod_eq] at htest
    rw [beq_eq_decide, beq_eq_decide]
    exact htest.symm
  have hle := Nat.mod_le (fmt.magnitude a) (2 ^ low)
  have hself := signed_self ha
  have hsub : a - fmt.magnitude a % 2 ^ low =
      fmt.signed (fmt.isNegative a) (fmt.magnitude a - fmt.magnitude a % 2 ^ low) := by
    rw [signed] at hself ⊢
    split_ifs at hself ⊢ <;> omega
  have hadd (m : Nat) : fmt.signed (fmt.isNegative a) m + 2 ^ low =
      fmt.signed (fmt.isNegative a) (m + 2 ^ low) := by
    rw [signed, signed]
    split_ifs <;> omega
  unfold roundToIntegral
  rw [unpack_finite hfinite hzero]
  dsimp only
  rw [if_neg (by omega), if_neg (by omega),
    show fmt.bias + fmt.fracBits - fmt.exponent a = low by omega, hmod, hbit, hsub, hadd]
  split_ifs <;> rfl

end Finite

/-- Either a number is an integer and stays, or it lies between two and becomes one of them, of which
the direction and the bits behind the point decide. -/
theorem roundToIntegral_finite (hfmt : fmt ∈ [binary32, binary64, binary128])
    (ha : a < 2 ^ fmt.width) (hfinite : fmt.IsFinite a) :
    ((∃ k : Nat, fmt.number (fmt.magnitude a) = k) ∧ ∀ d, roundToIntegral fmt a d = a) ∨
    ∃ q upper lower higher, IsBetween (fmt.number (fmt.magnitude a)) q upper ∧
      fmt.number lower = q ∧ fmt.number higher = (q + 1 : Nat) ∧ higher < fmt.infinityMagnitude ∧
      ∀ d, roundToIntegral fmt a d = fmt.signed (fmt.isNegative a)
        (if d.away (fmt.isNegative a) upper then higher else lower) := by
  obtain ⟨hbias, hodd, hmax⟩ := bias_of_mem hfmt
  obtain ⟨-, hbits, -⟩ := widths_of_mem hfmt
  have hexponent : fmt.exponent a = fmt.magnitude a / 2 ^ fmt.fracBits := exponent_eq a
  by_cases hzero : fmt.IsZero a
  · refine .inl ⟨⟨0, ?_⟩, fun d => roundToIntegral_zero hfinite d hzero⟩
    rw [show fmt.magnitude a = 0 from hzero, number_zero, Nat.cast_zero]
  by_cases hlarge : fmt.bias + fmt.fracBits ≤ fmt.exponent a
  · exact .inl ⟨number_large (hexponent ▸ hlarge) (by omega),
      fun d => roundToIntegral_large hfinite d hzero hlarge⟩
  by_cases hsmall : fmt.exponent a < fmt.bias
  · -- zero and one are the integers around
    have hbetween := isBetween_small hzero (hexponent ▸ hsmall) hbias
    rw [← hexponent, ← fraction_eq] at hbetween
    refine .inr ⟨0, _, 0, fmt.bias * 2 ^ fmt.fracBits, hbetween, ?_, ?_, ?_,
      fun d => roundToIntegral_small hfinite d hzero hsmall⟩
    · rw [number_zero, Nat.cast_zero]
    · rw [number_power (by omega), sub_self, zpow_zero, Nat.cast_one]
    · exact Nat.mul_lt_mul_of_pos_right (by omega) (Nat.two_pow_pos _)
  · obtain ⟨low, hlow⟩ := Nat.exists_eq_add_of_lt (Nat.lt_of_not_le hlarge)
    obtain ⟨q, hlower, hhigher, hparity, hnumber⟩ :=
      @number_around fmt (fmt.magnitude a) (low + 1) (by omega) (by omega) hodd
    have hround (d : Direction) := @roundToIntegral_around fmt a hfinite d hzero hbits (low + 1) ha
      (by omega) (by omega) (by omega)
    by_cases hfraction : fmt.magnitude a % 2 ^ (low + 1) = 0
    · refine .inl ⟨⟨q, ?_⟩, fun d => ?_⟩
      · rw [hnumber, hfraction, Nat.cast_zero, zero_div, add_zero]
      · rw [hround, if_pos hfraction]
    · refine .inr ⟨q, _, _, _, isBetween_around (by omega) hparity hnumber hfraction, hlower,
        hhigher, ?_, fun d => ?_⟩
      · refine Nat.lt_of_le_of_lt (Nat.add_le_add_right (Nat.sub_le _ _) _) ?_
        exact add_lt_infinityMagnitude (by omega) (by omega)
      · rw [hround, if_neg hfraction]

theorem sign_mul_intCast (negative : Bool) (n : ℤ) : ∃ n' : ℤ, sign negative * (n : ℝ) = n' := by
  cases negative with
  | false => exact ⟨n, by simp [sign]⟩
  | true => exact ⟨-n, by simp [sign]⟩

theorem roundToIntegral_isIntegral (hfmt : fmt ∈ [binary32, binary64, binary128])
    (ha : a < 2 ^ fmt.width) (d : Direction) :
    fmt.IsIntegral d a (roundToIntegral fmt a d) := by
  by_cases hfinite : fmt.IsFinite a
  · rcases roundToIntegral_finite hfmt ha hfinite with
      ⟨⟨k, hk⟩, hsame⟩ | ⟨q, upper, lower, higher, hbetween, hlower, hhigher, hmax, hround⟩
    · rw [hsame]
      obtain ⟨n, hn⟩ := sign_mul_intCast (fmt.isNegative a) k
      have hvalue : fmt.value a = n := by
        rw [value, hk, ← hn, Int.cast_natCast]
      exact
        { encoding := ha
          negative := rfl
          finite := fun _ => ⟨hfinite, n, hvalue ▸ d.takes_intCast n, hvalue⟩
          integral := fun _ _ => rfl
          other := fun _ => rfl }
    · rw [hround]
      have horder : lower < higher := by
        rw [← (number_strictMono fmt).lt_iff_lt, hlower, hhigher]
        exact_mod_cast Nat.lt_succ_self q
      have hlt : (if d.away (fmt.isNegative a) upper then higher else lower) <
          fmt.infinityMagnitude := by
        split_ifs
        · exact hmax
        · exact horder.trans hmax
      have hnumber : fmt.number (if d.away (fmt.isNegative a) upper then higher else lower) =
          (if d.away (fmt.isNegative a) upper then q + 1 else q : Nat) := by
        split_ifs
        · exact hhigher
        · exact hlower
      have hsign := hlt.trans (infinityMagnitude_lt fmt)
      obtain ⟨n, htakes, hn⟩ := hbetween.takes d (fmt.isNegative a)
      exact
        { encoding := signed_lt _ hsign
          negative := isNegative_signed hsign
          finite := fun _ => by
            refine ⟨isFinite_iff.mpr (by rwa [magnitude_signed hsign]), n, htakes, ?_⟩
            rw [value_signed hsign, hnumber, hn]
          integral := by
            -- then the number would be an integer without its sign, too
            rintro - ⟨n', hn'⟩
            obtain ⟨k, hk⟩ := sign_mul_intCast (fmt.isNegative a) n'
            rw [← hn', value, ← mul_assoc, sign_mul, bne_self_eq_false, sign, if_neg (by simp),
              one_mul] at hk
            exact absurd hk (hbetween.not_integer k)
          other := fun h => absurd hfinite h }
  · rw [roundToIntegral_other hfinite]
    exact
      { encoding := ha
        negative := rfl
        finite := fun h => absurd h hfinite
        integral := fun _ _ => rfl
        other := fun _ => rfl }

/-- Rounding to an integral value is exact: it gives the integer that the direction takes, with the
sign of the number, and does not change numbers that are integers or anything that is not a number.
Doing it again, in whichever direction, changes nothing. -/
theorem roundToIntegral_exact (hfmt : fmt ∈ [binary32, binary64, binary128])
    (ha : a < 2 ^ fmt.width) (d : Direction) :
    fmt.IsIntegral d a (roundToIntegral fmt a d) ∧
      ∀ d', roundToIntegral fmt (roundToIntegral fmt a d) d' = roundToIntegral fmt a d := by
  have hself := roundToIntegral_isIntegral hfmt ha d
  refine ⟨hself, fun d' => ?_⟩
  by_cases hfinite : fmt.IsFinite a
  · obtain ⟨hagain, n, -, hn⟩ := hself.finite hfinite
    exact (roundToIntegral_isIntegral hfmt hself.encoding d').integral hagain ⟨n, hn⟩
  · rw [hself.other hfinite, roundToIntegral_other hfinite]

/-- Two and a half is as near to two as to three, and two is even. -/
theorem roundToIntegral_tie :
    binary32.IsIntegral .nearest 0x40200000 0x40000000 ∧
      ∀ d, roundToIntegral binary32 0x40000000 d = 0x40000000 := by
  have hround : roundToIntegral binary32 0x40200000 .nearest = 0x40000000 := by decide +kernel
  have hexact :=
    @roundToIntegral_exact binary32 0x40200000 (by decide) (by decide) .nearest
  rwa [hround] at hexact

end Format

end MeteredWasm.SoftFloat
