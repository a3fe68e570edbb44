import MeteredWasm.Proofs.SoftFloat.Values

/-!
# Rounding to nearest

What it means for an encoding to be a number rounded to nearest, ties to even, in terms of all other
encodings. A number is rounded by finding the steps in which the encodings go around it and taking
the nearest of them, so it is enough to know where it stands on this grid; and two numbers between
the same points of a finer grid are rounded alike.
-/

namespace MeteredWasm.SoftFloat

-- Powers of numbers are the core library's, as in the formats themselves.
attribute [local instance (high)] instPowNat

namespace Format

variable {fmt : Format} {x y : ℝ} {offset k m : Nat}

/-! ## §1 Rounded numbers -/

/-- No number of the format is nearer to `x`, and where another one is equally near, the encoding is
the even one of both. It has the sign of `x`, also as a zero. -/
structure IsNearest (fmt : Format) (x : ℝ) (bits : Nat) : Prop where
  finite : fmt.IsFinite bits
  nearest : ∀ other, fmt.IsFinite other → |x - fmt.value bits| ≤ |x - fmt.value other|
  even : ∀ other, fmt.IsFinite other → fmt.value other ≠ fmt.value bits →
    |x - fmt.value other| = |x - fmt.value bits| → bits % 2 = 0
  negative : fmt.isNegative bits ↔ x < 0

/-- The encoding is `x`, rounded to nearest and ties to even: to a subnormal number or a zero where
it is small, and to an infinity where it is too large. -/
structure Rounds (fmt : Format) (x : ℝ) (bits : Nat) : Prop where
  encoding : bits < 2 ^ fmt.width
  nearest : |x| < fmt.overflowThreshold → fmt.IsNearest x bits
  overflow : fmt.overflowThreshold ≤ |x| → bits = fmt.infinity (decide (x < 0))

/-! ## §2 Grids -/

/-- Where a positive number stands on a grid of the format's numbers, in half steps: the grid is
that of the number's exponent, or the finest one, and its `k`th point is nearest, ties to even. -/
structure OnGrid (fmt : Format) (x : ℝ) (offset k : Nat) : Prop where
  low : (2 * k - 1) * 2 ^ (fmt.minScale + offset - 1) ≤ x
  high : x ≤ (2 * k + 1) * 2 ^ (fmt.minScale + offset - 1)
  even : x = (2 * k - 1) * 2 ^ (fmt.minScale + offset - 1) ∨
    x = (2 * k + 1) * 2 ^ (fmt.minScale + offset - 1) → k % 2 = 0
  least : offset = 0 ∨ 2 ^ (fmt.fracBits + 1) * 2 ^ (fmt.minScale + offset - 1) ≤ x
  lt : x < 2 ^ (fmt.fracBits + 2) * 2 ^ (fmt.minScale + offset - 1)

namespace OnGrid

theorem normal (h : fmt.OnGrid x offset k) : offset = 0 ∨ 2 ^ fmt.fracBits ≤ k := by
  refine h.least.imp_right fun hleast => ?_
  have hstep : (0 : ℝ) < 2 ^ (fmt.minScale + offset - 1) := zpow_pos two_pos _
  have hle := le_of_mul_le_mul_right (hleast.trans h.high) hstep
  have hnat : 2 ^ (fmt.fracBits + 1) ≤ 2 * k + 1 := by exact_mod_cast hle
  rw [Nat.pow_succ] at hnat
  omega

theorem le (h : fmt.OnGrid x offset k) : k ≤ 2 ^ (fmt.fracBits + 1) := by
  have hstep : (0 : ℝ) < 2 ^ (fmt.minScale + offset - 1) := zpow_pos two_pos _
  have hlt := lt_of_mul_lt_mul_right (h.low.trans_lt h.lt) hstep.le
  have hnat : 2 * k < 2 ^ (fmt.fracBits + 2) + 1 := by
    have hreal : (2 * k : ℝ) < 2 ^ (fmt.fracBits + 2) + 1 := by linarith
    exact_mod_cast hreal
  rw [Nat.pow_succ] at hnat
  omega

theorem number (h : fmt.OnGrid x offset k) :
    fmt.number (offset * 2 ^ fmt.fracBits + k) =
      2 * k * 2 ^ (fmt.minScale + offset - 1) := by
  rw [number_place h.normal h.le, zpow_sub_one₀ two_ne_zero]
  ring

end OnGrid

theorem offset_le (h : offset = 0 ∨ 2 ^ fmt.fracBits ≤ k) :
    offset ≤ fmt.offset (offset * 2 ^ fmt.fracBits + k) := by
  rcases h with rfl | hk
  · exact Nat.zero_le _
  · have hpos := Nat.two_pow_pos fmt.fracBits
    have hdiv : 1 ≤ k / 2 ^ fmt.fracBits := (Nat.one_le_div_iff hpos).mpr hk
    rw [Format.offset, Nat.mul_comm, Nat.mul_add_div hpos]
    omega

/-- A whole step of the grid is not more than the step from one number to the next. -/
theorem step_le (h : offset = 0 ∨ 2 ^ fmt.fracBits ≤ k) :
    (2 : ℝ) * 2 ^ (fmt.minScale + offset - 1) ≤
      2 ^ (fmt.minScale + fmt.offset (offset * 2 ^ fmt.fracBits + k)) := by
  have hle : fmt.minScale + offset ≤
      fmt.minScale + fmt.offset (offset * 2 ^ fmt.fracBits + k) := by
    have := offset_le h
    omega
  calc (2 : ℝ) * 2 ^ (fmt.minScale + offset - 1) = 2 ^ (fmt.minScale + offset) := by
        rw [zpow_sub_one₀ two_ne_zero]
        ring
    _ ≤ _ := zpow_le_zpow_right₀ one_le_two hle

namespace OnGrid

/-- No number above the point of the grid is nearer. -/
theorem nearest_above (h : fmt.OnGrid x offset k) (hm : offset * 2 ^ fmt.fracBits + k < m) :
    |x - fmt.number (offset * 2 ^ fmt.fracBits + k)| ≤ |x - fmt.number m| ∧
      (|x - fmt.number m| = |x - fmt.number (offset * 2 ^ fmt.fracBits + k)| → k % 2 = 0) := by
  have hnext : fmt.number (offset * 2 ^ fmt.fracBits + k + 1) ≤ fmt.number m :=
    (number_strictMono fmt).monotone hm
  -- the next number is a whole step away, and the point is off by half a step at most
  have hstep := step_le h.normal
  rw [number_succ] at hnext
  have hhere := h.number
  have hlow := h.low
  have hhigh := h.high
  have heven := h.even
  generalize (2 : ℝ) ^ (fmt.minScale + offset - 1) = half at *
  have habove : |x - fmt.number m| = fmt.number m - x := by
    rw [abs_sub_comm, abs_of_nonneg]
    linarith
  rw [habove]
  constructor
  · rw [abs_le]
    constructor <;> linarith
  · intro heq
    apply heven
    rcases abs_cases (x - fmt.number (offset * 2 ^ fmt.fracBits + k)) with ⟨habs, -⟩ | ⟨habs, -⟩
    · right
      linarith
    · left
      linarith

/-- No number below the point of the grid is nearer. -/
theorem nearest_below (h : fmt.OnGrid x offset k) (hm : m < offset * 2 ^ fmt.fracBits + k) :
    |x - fmt.number (offset * 2 ^ fmt.fracBits + k)| ≤ |x - fmt.number m| ∧
      (|x - fmt.number m| = |x - fmt.number (offset * 2 ^ fmt.fracBits + k)| → k % 2 = 0) := by
  by_cases hfirst : offset ≠ 0 ∧ k = 2 ^ fmt.fracBits
  · -- the steps below are shorter, but the number is not below the point
    have hlt := number_strictMono fmt hm
    have hx : fmt.number (offset * 2 ^ fmt.fracBits + k) ≤ x := by
      rw [h.number, hfirst.2]
      refine le_of_eq_of_le ?_ (h.least.resolve_left hfirst.1)
      push_cast
      ring
    rw [abs_of_nonneg (sub_nonneg.mpr hx), abs_of_nonneg (by linarith)]
    constructor
    · linarith
    · intro heq
      linarith
  · obtain ⟨j, rfl⟩ : ∃ j, k = j + 1 := by
      refine ⟨k - 1, (Nat.sub_add_cancel (Nat.one_le_iff_ne_zero.mpr ?_)).symm⟩
      rintro rfl
      rcases h.normal with rfl | hk
      · simp at hm
      · exact Nat.not_le_of_lt (Nat.two_pow_pos _) hk
    have hnormal : offset = 0 ∨ 2 ^ fmt.fracBits ≤ j := by
      rcases h.normal with hzero | hk
      · exact .inl hzero
      · by_contra hnot
        exact hfirst (by omega)
    have hbelow : fmt.number m ≤ fmt.number (offset * 2 ^ fmt.fracBits + j) :=
      (number_strictMono fmt).monotone (by omega)
    have hstep := step_le hnormal
    have hnext := number_succ fmt (offset * 2 ^ fmt.fracBits + j)
    rw [Nat.add_assoc] at hnext
    have hhere := h.number
    have hlow := h.low
    have hhigh := h.high
    have heven := h.even
    generalize (2 : ℝ) ^ (fmt.minScale + offset - 1) = half at *
    have hdistance : |x - fmt.number m| = x - fmt.number m := by
      rw [abs_of_nonneg]
      linarith
    rw [hdistance]
    constructor
    · rw [abs_le]
      constructor <;> linarith
    · intro heq
      apply heven
      rcases abs_cases (x - fmt.number (offset * 2 ^ fmt.fracBits + (j + 1))) with
        ⟨habs, -⟩ | ⟨habs, -⟩
      · right
        linarith
      · left
        linarith

/-- Of all numbers, the point of the grid is nearest. -/
theorem nearest (h : fmt.OnGrid x offset k) (m : Nat) :
    |x - fmt.number (offset * 2 ^ fmt.fracBits + k)| ≤ |x - fmt.number m| ∧
      (m ≠ offset * 2 ^ fmt.fracBits + k →
        |x - fmt.number m| = |x - fmt.number (offset * 2 ^ fmt.fracBits + k)| → k % 2 = 0) := by
  rcases Nat.lt_trichotomy m (offset * 2 ^ fmt.fracBits + k) with hlt | rfl | hgt
  · exact ⟨(h.nearest_below hlt).1, fun _ => (h.nearest_below hlt).2⟩
  · exact ⟨le_refl _, fun hne => absurd rfl hne⟩
  · exact ⟨(h.nearest_above hgt).1, fun _ => (h.nearest_above hgt).2⟩

end OnGrid

/-! ## §3 Rounding on a grid -/

theorem abs_sign_mul (negative : Bool) (x : ℝ) : |sign negative * x| = |x| := by
  cases negative <;> simp [sign]

theorem sign_mul_neg_iff (negative : Bool) (hx : 0 < x) :
    sign negative * x < 0 ↔ negative = true := by
  cases negative with
  | false => simp [sign, hx.le]
  | true => simp [sign, hx]

/-- Numbers of the same sign are as far from each other as without it. -/
theorem abs_sub_same (negative : Bool) (x y : ℝ) :
    |sign negative * x - sign negative * y| = |x - y| := by
  rw [← mul_sub, abs_sign_mul]

/-- Numbers of opposite signs are as far from each other as both are from zero. -/
theorem abs_sub_opposite {a b : Bool} (hne : a ≠ b) (hx : 0 ≤ x) (hy : 0 ≤ y) :
    |sign a * x - sign b * y| = x + y := by
  cases a <;> cases b <;> simp only [sign, Bool.false_eq_true, if_true, if_false, ne_eq,
    not_true_eq_false] at hne ⊢
  · rw [abs_of_nonneg] <;> linarith
  · rw [abs_of_nonpos] <;> linarith

/-- Encodings are even where their magnitudes are. -/
theorem signed_mod_two (hfrac : 0 < fmt.fracBits) (negative : Bool) (m : Nat) :
    fmt.signed negative m % 2 = m % 2 := by
  have hsign : fmt.signBit % 2 = 0 := by
    rw [signBit, ← Nat.sub_add_cancel hfrac, ← Nat.add_assoc, Nat.pow_succ, Nat.mul_mod_left]
  cases negative with
  | false => simp [signed]
  | true => simp [signed, Nat.add_mod, hsign]

/-- Points of a grid are even where their positions are. -/
theorem place_mod_two (hfrac : 0 < fmt.fracBits) (offset k : Nat) :
    (offset * 2 ^ fmt.fracBits + k) % 2 = k % 2 := by
  rw [← Nat.sub_add_cancel hfrac, Nat.pow_succ, ← Nat.mul_assoc, Nat.add_comm,
    Nat.add_mul_mod_self_right]

theorem infinityMagnitude_lt (fmt : Format) : fmt.infinityMagnitude < fmt.signBit := by
  have hpos := Nat.two_pow_pos fmt.fracBits
  have hadd := infinityMagnitude_add fmt
  omega

theorem infinityMagnitude_even (hfrac : 0 < fmt.fracBits) : fmt.infinityMagnitude % 2 = 0 := by
  have heven := place_mod_two hfrac fmt.expMax 0
  rwa [Nat.add_zero, Nat.zero_mod] at heven

theorem signed_lt (negative : Bool) (h : m < fmt.signBit) :
    fmt.signed negative m < 2 ^ fmt.width := by
  have hwidth : 2 ^ fmt.width = 2 * fmt.signBit := by
    rw [width, signBit, Nat.add_assoc, Nat.pow_add]
  rw [hwidth, signed]
  split <;> omega

namespace OnGrid

/-- The nearest point of the grid is a finite number exactly below the overflow threshold. -/
theorem finite_iff (h : fmt.OnGrid x offset k) (hfrac : 0 < fmt.fracBits)
    (hexp : 0 < fmt.expBits) :
    offset * 2 ^ fmt.fracBits + k < fmt.infinityMagnitude ↔ x < fmt.overflowThreshold := by
  have hpos := infinityMagnitude_pos hexp
  have hpred : fmt.infinityMagnitude - 1 < fmt.infinityMagnitude := Nat.sub_one_lt_of_lt hpos
  have hgap := number_strictMono fmt hpred
  -- the number is compared with both neighbours of the threshold
  rw [overflowThreshold]
  constructor
  · intro hlt
    have hle : fmt.number (offset * 2 ^ fmt.fracBits + k) ≤
        fmt.number (fmt.infinityMagnitude - 1) :=
      (number_strictMono fmt).monotone (Nat.le_sub_one_of_lt hlt)
    obtain ⟨hnearest, htie⟩ := h.nearest fmt.infinityMagnitude
    by_contra hnot
    have hbelow : |x - fmt.number (offset * 2 ^ fmt.fracBits + k)| =
        x - fmt.number (offset * 2 ^ fmt.fracBits + k) := abs_of_nonneg (by linarith)
    rw [hbelow] at hnearest htie
    rcases abs_cases (x - fmt.number fmt.infinityMagnitude) with ⟨habs, -⟩ | ⟨habs, hneg⟩
    · linarith
    · -- half way, and the greatest finite number is odd
      have hlast : offset * 2 ^ fmt.fracBits + k = fmt.infinityMagnitude - 1 :=
        (number_strictMono fmt).injective (by linarith)
      have heven := htie (Nat.ne_of_gt hlt) (by linarith)
      have hparity := place_mod_two hfrac offset k
      have hinfinity := infinityMagnitude_even hfrac
      omega
  · intro hlt
    by_contra hnot
    have hle : fmt.number fmt.infinityMagnitude ≤
        fmt.number (offset * 2 ^ fmt.fracBits + k) :=
      (number_strictMono fmt).monotone (Nat.le_of_not_lt hnot)
    have hnearest := (h.nearest (fmt.infinityMagnitude - 1)).1
    have habove : |x - fmt.number (offset * 2 ^ fmt.fracBits + k)| =
        fmt.number (offset * 2 ^ fmt.fracBits + k) - x := by
      rw [abs_sub_comm]
      exact abs_of_nonneg (by linarith)
    rw [habove] at hnearest
    rcases abs_cases (x - fmt.number (fmt.infinityMagnitude - 1)) with ⟨habs, -⟩ | ⟨habs, -⟩ <;>
      linarith

/-- A point of the grid with a sign is nearest to a number of that sign. -/
theorem isNearest (h : fmt.OnGrid x offset k) (hfrac : 0 < fmt.fracBits) (hx : 0 < x)
    (negative : Bool) (hfinite : offset * 2 ^ fmt.fracBits + k < fmt.infinityMagnitude) :
    fmt.IsNearest (sign negative * x)
      (fmt.signed negative (offset * 2 ^ fmt.fracBits + k)) := by
  have hlt := Nat.lt_trans hfinite (infinityMagnitude_lt fmt)
  have hparity : fmt.signed negative (offset * 2 ^ fmt.fracBits + k) % 2 = k % 2 := by
    rw [signed_mod_two hfrac, place_mod_two hfrac]
  have hhere : |sign negative * x - fmt.value (fmt.signed negative
      (offset * 2 ^ fmt.fracBits + k))| = |x - fmt.number (offset * 2 ^ fmt.fracBits + k)| := by
    rw [value_signed hlt, abs_sub_same]
  refine ⟨?_, ?_, ?_, ?_⟩
  · rw [isFinite_iff, magnitude_signed hlt]
    exact hfinite
  · intro other _
    rw [hhere, value]
    by_cases hsign : negative = fmt.isNegative other
    · rw [← hsign, abs_sub_same]
      exact (h.nearest _).1
    · -- on the other side of zero every number is farther than zero itself
      rw [abs_sub_opposite hsign hx.le (number_nonneg fmt _)]
      refine (h.nearest 0).1.trans ?_
      rw [number_zero, sub_zero, abs_of_pos hx]
      linarith [number_nonneg fmt (fmt.magnitude other)]
  · intro other _ hne htie
    rw [hparity]
    rw [hhere] at htie
    by_cases hsign : negative = fmt.isNegative other
    · rw [value, ← hsign, abs_sub_same] at htie
      refine (h.nearest _).2 ?_ htie
      rintro hmagnitude
      rw [value_signed hlt, ← hmagnitude, hsign] at hne
      exact hne rfl
    · -- only zero can be as near as the point, which then is another number
      rw [value, abs_sub_opposite hsign hx.le (number_nonneg fmt _)] at htie
      have hzero := (h.nearest 0).1
      rw [number_zero, sub_zero, abs_of_pos hx] at hzero
      have hother : fmt.number (fmt.magnitude other) = 0 :=
        le_antisymm (by linarith) (number_nonneg fmt _)
      refine (h.nearest 0).2 ?_ ?_
      · intro hmagnitude
        rw [value_signed hlt, ← hmagnitude, number_zero, value, hother, mul_zero,
          mul_zero] at hne
        exact hne rfl
      · rw [number_zero, sub_zero, abs_of_pos hx]
        linarith
  · rw [isNegative_signed hlt, sign_mul_neg_iff negative hx]

/-- A number is rounded to the nearest point of its grid, where this is not too large. -/
theorem rounds (h : fmt.OnGrid x offset k) (hfrac : 0 < fmt.fracBits) (hexp : 0 < fmt.expBits)
    (hx : 0 < x) (negative : Bool) :
    fmt.Rounds (sign negative * x) (fmt.signed negative
      (min (offset * 2 ^ fmt.fracBits + k) fmt.infinityMagnitude)) := by
  have hiff := h.finite_iff hfrac hexp
  refine ⟨?_, ?_, ?_⟩
  · exact signed_lt negative
      (Nat.lt_of_le_of_lt (Nat.min_le_right _ _) (infinityMagnitude_lt fmt))
  · rw [abs_sign_mul, abs_of_pos hx, ← hiff]
    intro hfinite
    rw [Nat.min_eq_left hfinite.le]
    exact h.isNearest hfrac hx negative hfinite
  · rw [abs_sign_mul, abs_of_pos hx, ← not_lt, ← hiff, Nat.not_lt]
    intro hlarge
    have hdecide : decide (sign negative * x < 0) = negative := by
      cases negative <;> simp [sign_mul_neg_iff _ hx]
    rw [Nat.min_eq_right hlarge, hdecide, infinity, infinityMagnitude]

/-- Every number of the format is a point of its grid. -/
theorem of_number (fmt : Format) (m : Nat) :
    fmt.OnGrid (fmt.number m) (fmt.offset m) (fmt.significand m) := by
  have hhalf : (0 : ℝ) < 2 ^ (fmt.minScale + fmt.offset m - 1) := zpow_pos two_pos _
  have hpoint : fmt.number m =
      2 * fmt.significand m * 2 ^ (fmt.minScale + fmt.offset m - 1) := by
    rw [Format.number, zpow_sub_one₀ two_ne_zero]
    ring
  rw [hpoint]
  refine ⟨?_, ?_, ?_, ?_, ?_⟩
  · exact mul_le_mul_of_nonneg_right (by linarith) hhalf.le
  · exact mul_le_mul_of_nonneg_right (by linarith) hhalf.le
  · rintro (htie | htie)
    · linarith [mul_right_cancel₀ hhalf.ne' htie]
    · linarith [mul_right_cancel₀ hhalf.ne' htie]
  · refine (normal_or_least m).imp_right fun hnormal => ?_
    have hreal : (2 : ℝ) ^ fmt.fracBits ≤ fmt.significand m := by exact_mod_cast hnormal
    exact mul_le_mul_of_nonneg_right (by rw [pow_succ]; linarith) hhalf.le
  · have hreal : (fmt.significand m : ℝ) < 2 ^ (fmt.fracBits + 1) := by
      exact_mod_cast significand_lt fmt m
    exact mul_lt_mul_of_pos_right (by rw [pow_succ]; linarith) hhalf

end OnGrid

/-- A number of the format is rounded to itself. -/
theorem rounds_value {bits : Nat} (hfrac : 0 < fmt.fracBits) (hexp : 0 < fmt.expBits)
    (hbits : bits < 2 ^ fmt.width) (hfinite : fmt.IsFinite bits) (hne : ¬fmt.IsZero bits) :
    fmt.Rounds (fmt.value bits) bits := by
  have hpos : 0 < fmt.number (fmt.magnitude bits) :=
    lt_of_le_of_ne (number_nonneg fmt _) fun hzero => hne (number_eq_zero.mp hzero.symm)
  have hrounds := (OnGrid.of_number fmt (fmt.magnitude bits)).rounds hfrac hexp hpos
    (fmt.isNegative bits)
  rwa [place_self, Nat.min_eq_left (isFinite_iff.mp hfinite).le, signed_self hbits] at hrounds

/-! ## §4 There is one rounded number -/

/-- Of two even numbers that are equally near, the odd one between them is nearer. -/
theorem IsNearest.unique {r s : Nat} (hr : fmt.IsNearest x r) (hs : fmt.IsNearest x s)
    (hfrac : 0 < fmt.fracBits) (hr' : r < 2 ^ fmt.width) (hs' : s < 2 ^ fmt.width) : r = s := by
  -- both have the sign of the number, so they are told apart by their magnitudes
  wlog hle : fmt.magnitude r ≤ fmt.magnitude s generalizing r s
  · exact (this hs hr hs' hr' (Nat.le_of_not_le hle)).symm
  have hsign : fmt.isNegative s = fmt.isNegative r :=
    Bool.eq_iff_iff.mpr (hs.negative.trans hr.negative.symm)
  rcases Nat.lt_or_eq_of_le hle with hlt | heq
  · exfalso
    have hvalues : fmt.value s ≠ fmt.value r := by
      intro hsame
      rw [value, value, hsign, mul_right_inj' (by cases fmt.isNegative r <;> simp [sign])] at hsame
      exact Nat.ne_of_gt hlt ((number_strictMono fmt).injective hsame)
    have hdistance : |x - fmt.value s| = |x - fmt.value r| :=
      le_antisymm (hs.nearest r hr.finite) (hr.nearest s hs.finite)
    have hparity {bits : Nat} (hbits : bits < 2 ^ fmt.width) :
        bits % 2 = fmt.magnitude bits % 2 := by
      conv_lhs => rw [← signed_self hbits, signed_mod_two hfrac]
    have hevenR := hr.even s hs.finite hvalues hdistance
    have hevenS := hs.even r hr.finite hvalues.symm hdistance.symm
    rw [hparity hr'] at hevenR
    rw [hparity hs'] at hevenS
    have hbetween : fmt.magnitude r + 1 < fmt.magnitude s := by omega
    have hfinite := isFinite_iff.mp hs.finite
    have hmagnitude : fmt.magnitude r + 1 < fmt.signBit :=
      Nat.lt_trans hbetween (magnitude_lt fmt s)
    have hnearer := hr.nearest (fmt.signed (fmt.isNegative r) (fmt.magnitude r + 1))
      (by rw [isFinite_iff, magnitude_signed hmagnitude]; omega)
    have hbelow := number_strictMono fmt (Nat.lt_succ_self (fmt.magnitude r))
    have habove := number_strictMono fmt hbetween
    -- the distances are the same with the sign of the number taken off
    have hx : x = sign (fmt.isNegative r) * (sign (fmt.isNegative r) * x) := by
      rw [← mul_assoc, sign_mul]
      simp [sign]
    rw [value_signed hmagnitude, value, hx, abs_sub_same, abs_sub_same] at hnearer
    rw [value, value, hsign, hx, abs_sub_same, abs_sub_same] at hdistance
    grind
  · rw [← signed_self hr', ← signed_self hs', heq, hsign]

theorem Rounds.unique {r s : Nat} (hr : fmt.Rounds x r) (hs : fmt.Rounds x s)
    (hfrac : 0 < fmt.fracBits) : r = s := by
  rcases lt_or_ge |x| fmt.overflowThreshold with hlt | hge
  · exact (hr.nearest hlt).unique (hs.nearest hlt) hfrac hr.encoding hs.encoding
  · rw [hr.overflow hge, hs.overflow hge]

/-! ## §5 Numbers rounded alike -/

/-- Strictly between the `n`th multiple of a power of two and the next one. -/
structure Between (n : Nat) (scale : Int) (x : ℝ) : Prop where
  low : n * 2 ^ scale < x
  high : x < (n + 1) * 2 ^ scale

theorem between_iff {n : Nat} {scale : Int} :
    Between n scale x ↔ n * 2 ^ scale < x ∧ x < (n + 1) * 2 ^ scale :=
  ⟨fun h => ⟨h.low, h.high⟩, fun h => ⟨h.1, h.2⟩⟩

namespace Between

variable {n : Nat} {scale : Int}

theorem pos (h : Between n scale x) : 0 < x :=
  lt_of_le_of_lt (mul_nonneg n.cast_nonneg (zpow_pos two_pos _).le) h.low

/-- Multiples of the power are not between. -/
theorem le_iff (h : Between n scale x) (p : Int) : x ≤ p * 2 ^ scale ↔ (n : Int) < p := by
  have hpos : (0 : ℝ) < 2 ^ scale := zpow_pos two_pos _
  constructor
  · intro hle
    have hlt := lt_of_mul_lt_mul_right (h.low.trans_le hle) hpos.le
    exact_mod_cast hlt
  · intro hlt
    have hle : ((n : ℝ) + 1) ≤ p := by exact_mod_cast hlt
    exact h.high.le.trans (mul_le_mul_of_nonneg_right hle hpos.le)

theorem ge_iff (h : Between n scale x) (p : Int) : p * 2 ^ scale ≤ x ↔ p ≤ (n : Int) := by
  have hpos : (0 : ℝ) < 2 ^ scale := zpow_pos two_pos _
  constructor
  · intro hle
    have hlt := lt_of_mul_lt_mul_right (hle.trans_lt h.high) hpos.le
    exact Int.lt_add_one_iff.mp (by exact_mod_cast hlt)
  · intro hle
    have hreal : (p : ℝ) ≤ n := by exact_mod_cast hle
    exact (mul_le_mul_of_nonneg_right hreal hpos.le).trans h.low.le

/-- Between points of a grid is between points of a coarser one. -/
theorem coarsen (h : Between n scale x) (count : Nat) :
    Between (n / 2 ^ count) (scale + count) x := by
  have hpos : (0 : ℝ) < 2 ^ scale := zpow_pos two_pos _
  have hpower : (2 : ℝ) ^ (scale + count) = 2 ^ count * 2 ^ scale := by
    rw [zpow_add₀ two_ne_zero, zpow_natCast, mul_comm]
  have hlow : (((n / 2 ^ count : Nat) : ℝ)) * 2 ^ count ≤ n := by
    exact_mod_cast Nat.div_mul_le_self n (2 ^ count)
  have hhigh : ((n : ℝ) + 1) ≤ ((n / 2 ^ count : Nat) + 1) * 2 ^ count := by
    have hlt : n < n / 2 ^ count * 2 ^ count + 2 ^ count :=
      Nat.lt_div_mul_add (Nat.two_pow_pos count)
    have hnat : n + 1 ≤ (n / 2 ^ count + 1) * 2 ^ count := by
      rw [Nat.succ_mul]
      exact hlt
    exact_mod_cast hnat
  rw [between_iff, hpower, ← mul_assoc, ← mul_assoc]
  exact ⟨(mul_le_mul_of_nonneg_right hlow hpos.le).trans_lt h.low,
    h.high.trans_le (mul_le_mul_of_nonneg_right hhigh hpos.le)⟩

end Between

/-- Two numbers that no multiple of a power of two separates stand alike on the grid of a format, if
the power is small enough for them to have more bits than the format keeps. -/
theorem OnGrid.of_between {n : Nat} {scale : Int} (h : fmt.OnGrid y offset k)
    (hn : 2 ^ (fmt.fracBits + 1) ≤ n) (hy : Between n scale y) (hx : Between n scale x) :
    fmt.OnGrid x offset k := by
  -- the points of the grid, halved, are multiples of the power
  have hscale : scale ≤ fmt.minScale + offset - 1 := by
    have hreal : (2 : ℝ) ^ (fmt.fracBits + 1) ≤ n := by exact_mod_cast hn
    have hlt : (2 : ℝ) ^ (fmt.fracBits + 1) * 2 ^ scale <
        2 ^ (fmt.fracBits + 1) * 2 ^ (fmt.minScale + offset - 1 + 1) := by
      calc (2 : ℝ) ^ (fmt.fracBits + 1) * 2 ^ scale ≤ n * 2 ^ scale :=
            mul_le_mul_of_nonneg_right hreal (zpow_pos two_pos _).le
        _ < y := hy.low
        _ < 2 ^ (fmt.fracBits + 2) * 2 ^ (fmt.minScale + offset - 1) := h.lt
        _ = 2 ^ (fmt.fracBits + 1) * 2 ^ (fmt.minScale + offset - 1 + 1) := by
            rw [zpow_add_one₀ two_ne_zero]
            ring
    have hpower := lt_of_mul_lt_mul_left hlt (by positivity)
    exact Int.lt_add_one_iff.mp ((zpow_lt_zpow_iff_right₀ one_lt_two).mp hpower)
  obtain ⟨count, hcount⟩ := Int.le.dest hscale
  have hhalf : (2 : ℝ) ^ (fmt.minScale + offset - 1) = 2 ^ count * 2 ^ scale := by
    rw [← hcount, zpow_add₀ two_ne_zero, zpow_natCast, mul_comm]
  have hpoint (p : Int) : (p : ℝ) * 2 ^ (fmt.minScale + offset - 1) =
      ((p * 2 ^ count : Int) : ℝ) * 2 ^ scale := by
    rw [hhalf]
    push_cast
    ring
  have hle (p : Int) : x ≤ p * 2 ^ (fmt.minScale + offset - 1) ↔
      y ≤ p * 2 ^ (fmt.minScale + offset - 1) := by
    rw [hpoint, hx.le_iff, hy.le_iff]
  have hge (p : Int) : p * 2 ^ (fmt.minScale + offset - 1) ≤ x ↔
      p * 2 ^ (fmt.minScale + offset - 1) ≤ y := by
    rw [hpoint, hx.ge_iff, hy.ge_iff]
  have hlow := hge (2 * k - 1)
  have hhigh := hle (2 * k + 1)
  have hlow' := hle (2 * k - 1)
  have hhigh' := hge (2 * k + 1)
  have hleast := hge (2 ^ (fmt.fracBits + 1))
  have hlt := hge (2 ^ (fmt.fracBits + 2))
  push_cast at hlow hhigh hlow' hhigh' hleast hlt
  refine ⟨hlow.mpr h.low, hhigh.mpr h.high, ?_, ?_, ?_⟩
  · rintro (htie | htie)
    · exact h.even (.inl (le_antisymm (hlow'.mp htie.le) h.low))
    · exact h.even (.inr (le_antisymm h.high (hhigh'.mp htie.ge)))
  · exact h.least.imp_right hleast.mpr
  · exact not_le.mp fun hnot => not_le.mpr h.lt (hlt.mp hnot)

end Format

end MeteredWasm.SoftFloat
