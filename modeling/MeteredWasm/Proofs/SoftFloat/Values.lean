import Mathlib.Data.Real.Basic
import Mathlib.Tactic.Linarith
import Mathlib.Tactic.Positivity
import Mathlib.Tactic.Ring
import MeteredWasm.SoftFloat.Format

/-!
# The numbers that encodings stand for

A magnitude, an encoding without its sign, is a position in a sequence of numbers: from each to the
next it is one unit in the last place, and the unit doubles whenever the exponent goes up. The
sequence goes on beyond the greatest finite number as if there were more exponents, which tells
where numbers are rounded to infinity.
-/

namespace MeteredWasm.SoftFloat

-- Powers of numbers are the core library's, as in the formats themselves.
attribute [local instance (high)] instPowNat

namespace Format

variable (fmt : Format)

/-! ## §1 Magnitudes -/

/-- How far the stored exponent of a magnitude is above the least one. That of subnormal numbers,
zero, counts as one. -/
def offset (m : Nat) : Nat :=
  m / 2 ^ fmt.fracBits - 1

/-- The significand of a magnitude. Subnormal numbers have no leading one. -/
def significand (m : Nat) : Nat :=
  if m < 2 ^ fmt.fracBits then m else 2 ^ fmt.fracBits + m % 2 ^ fmt.fracBits

/-- The number at a magnitude. -/
noncomputable def number (m : Nat) : ℝ :=
  fmt.significand m * 2 ^ (fmt.minScale + fmt.offset m)

variable {fmt}

theorem offset_of_lt {m : Nat} (h : m < 2 ^ fmt.fracBits) : fmt.offset m = 0 := by
  rw [offset, Nat.div_eq_of_lt h]

theorem significand_of_lt {m : Nat} (h : m < 2 ^ fmt.fracBits) : fmt.significand m = m :=
  if_pos h

/-- Which magnitude has a certain significand under a certain exponent. -/
theorem place_normal {offset k : Nat} (hk : 2 ^ fmt.fracBits ≤ k)
    (hk' : k < 2 ^ (fmt.fracBits + 1)) :
    fmt.offset (offset * 2 ^ fmt.fracBits + k) = offset ∧
      fmt.significand (offset * 2 ^ fmt.fracBits + k) = k := by
  have hpos := Nat.two_pow_pos fmt.fracBits
  obtain ⟨f, rfl⟩ := Nat.exists_eq_add_of_le hk
  have hf : f < 2 ^ fmt.fracBits := by
    rw [Nat.pow_succ] at hk'
    omega
  have hplace : offset * 2 ^ fmt.fracBits + (2 ^ fmt.fracBits + f) =
      f + 2 ^ fmt.fracBits * (offset + 1) := by
    rw [Nat.mul_succ, Nat.mul_comm]
    omega
  rw [hplace]
  constructor
  · rw [Format.offset, Nat.add_mul_div_left _ _ hpos, Nat.div_eq_of_lt hf]
    omega
  · have hnot : ¬f + 2 ^ fmt.fracBits * (offset + 1) < 2 ^ fmt.fracBits := by
      rw [Nat.mul_succ]
      omega
    rw [significand, if_neg hnot, Nat.add_mul_mod_self_left, Nat.mod_eq_of_lt hf]

/-- A magnitude is where its significand stands under its exponent. -/
theorem place_self (m : Nat) : fmt.offset m * 2 ^ fmt.fracBits + fmt.significand m = m := by
  by_cases h : m < 2 ^ fmt.fracBits
  · rw [offset_of_lt h, significand_of_lt h, Nat.zero_mul, Nat.zero_add]
  · have hdiv : 1 ≤ m / 2 ^ fmt.fracBits :=
      (Nat.one_le_div_iff (Nat.two_pow_pos _)).mpr (Nat.le_of_not_lt h)
    rw [significand, if_neg h, offset, ← Nat.add_assoc, ← Nat.succ_mul, Nat.succ_eq_add_one,
      Nat.sub_add_cancel hdiv]
    exact Nat.div_add_mod' m _

theorem significand_lt (fmt : Format) (m : Nat) : fmt.significand m < 2 ^ (fmt.fracBits + 1) := by
  have hpos := Nat.two_pow_pos fmt.fracBits
  rw [significand, Nat.pow_succ]
  split
  · omega
  · have := Nat.mod_lt m hpos
    omega

/-- Significands have all their bits, except under the least exponent. -/
theorem normal_or_least (m : Nat) : fmt.offset m = 0 ∨ 2 ^ fmt.fracBits ≤ fmt.significand m := by
  by_cases h : m < 2 ^ fmt.fracBits
  · exact .inl (offset_of_lt h)
  · right
    rw [significand, if_neg h]
    exact Nat.le_add_right _ _

theorem number_zero (fmt : Format) : fmt.number 0 = 0 := by
  simp [number, significand]

/-- The numbers in steps of one size: subnormal ones under the least exponent, the normal ones of an
exponent, and the first one of the next exponent. -/
theorem number_place {offset k : Nat} (hleast : offset = 0 ∨ 2 ^ fmt.fracBits ≤ k)
    (hk : k ≤ 2 ^ (fmt.fracBits + 1)) :
    fmt.number (offset * 2 ^ fmt.fracBits + k) = k * 2 ^ (fmt.minScale + offset) := by
  rcases Nat.lt_or_ge k (2 ^ fmt.fracBits) with hlt | hge
  · obtain rfl := hleast.resolve_right (Nat.not_le_of_lt hlt)
    rw [Nat.zero_mul, Nat.zero_add, number, offset_of_lt hlt, significand_of_lt hlt]
  · rcases Nat.lt_or_eq_of_le hk with hlt | rfl
    · obtain ⟨hoffset, hsignificand⟩ := @place_normal fmt offset k hge hlt
      rw [number, hoffset, hsignificand]
    · -- twice the least normal significand stands for the least one under the next exponent
      have hplace : offset * 2 ^ fmt.fracBits + 2 ^ (fmt.fracBits + 1) =
          (offset + 1) * 2 ^ fmt.fracBits + 2 ^ fmt.fracBits := by
        rw [Nat.pow_succ, Nat.succ_mul]
        omega
      obtain ⟨hoffset, hsignificand⟩ :=
        @place_normal fmt (offset + 1) (2 ^ fmt.fracBits) (Nat.le_refl _)
          (Nat.pow_lt_pow_succ Nat.one_lt_two)
      rw [hplace, number, hoffset, hsignificand]
      push_cast
      rw [← add_assoc, zpow_add_one₀ two_ne_zero, pow_succ]
      ring

/-- From each number to the next it is one unit in the last place. -/
theorem number_succ (fmt : Format) (m : Nat) :
    fmt.number (m + 1) = fmt.number m + 2 ^ (fmt.minScale + fmt.offset m) := by
  have hleast : fmt.offset m = 0 ∨ 2 ^ fmt.fracBits ≤ fmt.significand m + 1 :=
    (normal_or_least m).imp_right Nat.le_succ_of_le
  have hnext := number_place hleast (significand_lt fmt m)
  rw [← Nat.add_assoc, place_self] at hnext
  rw [hnext, number]
  push_cast
  ring

theorem number_strictMono (fmt : Format) : StrictMono fmt.number := by
  apply strictMono_nat_of_lt_succ
  intro m
  rw [number_succ]
  exact lt_add_of_pos_right _ (zpow_pos two_pos _)

theorem number_nonneg (fmt : Format) (m : Nat) : 0 ≤ fmt.number m := by
  rw [← number_zero fmt]
  exact (number_strictMono fmt).monotone (Nat.zero_le m)

/-! ## §2 Encodings -/

/-- Is this the encoding of a number? -/
def IsFinite (fmt : Format) (bits : Nat) : Prop :=
  fmt.exponent bits ≠ fmt.expMax

/-- Is this an infinity? -/
def IsInfinite (fmt : Format) (bits : Nat) : Prop :=
  fmt.exponent bits = fmt.expMax ∧ fmt.fraction bits = 0

/-- Is this a zero, of either sign? -/
def IsZero (fmt : Format) (bits : Nat) : Prop := fmt.magnitude bits = 0

/-- The magnitude of the infinities. -/
def infinityMagnitude (fmt : Format) : Nat := fmt.expMax * 2 ^ fmt.fracBits

/-- Half way between the greatest finite number and the one that would follow. -/
noncomputable def overflowThreshold (fmt : Format) : ℝ :=
  (fmt.number (fmt.infinityMagnitude - 1) + fmt.number fmt.infinityMagnitude) / 2

/-- One or minus one. -/
def sign (negative : Bool) : ℝ := if negative then -1 else 1

/-- The number that an encoding stands for. -/
noncomputable def value (fmt : Format) (bits : Nat) : ℝ :=
  sign (fmt.isNegative bits) * fmt.number (fmt.magnitude bits)

theorem sign_mul (a b : Bool) : sign a * sign b = sign (a != b) := by
  cases a <;> cases b <;> simp [sign]

theorem sign_not (a : Bool) : sign (!a) = -sign a := by
  cases a <;> simp [sign]

theorem exponent_eq (bits : Nat) :
    fmt.exponent bits = fmt.magnitude bits / 2 ^ fmt.fracBits := by
  rw [exponent, magnitude, signBit, Nat.pow_add, Nat.mod_mul_left_div_self]

theorem fraction_eq (bits : Nat) :
    fmt.fraction bits = fmt.magnitude bits % 2 ^ fmt.fracBits := by
  rw [fraction, magnitude, signBit, Nat.pow_add, Nat.mod_mod_of_dvd _ (Nat.dvd_mul_left _ _)]

theorem magnitude_lt (fmt : Format) (bits : Nat) : fmt.magnitude bits < fmt.signBit :=
  Nat.mod_lt _ (Nat.two_pow_pos _)

theorem infinityMagnitude_add (fmt : Format) :
    fmt.infinityMagnitude + 2 ^ fmt.fracBits = fmt.signBit := by
  rw [infinityMagnitude, ← Nat.succ_mul, expMax, signBit, Nat.pow_add,
    Nat.succ_eq_add_one, Nat.sub_add_cancel (Nat.one_le_two_pow)]

theorem infinityMagnitude_pos (hexp : 0 < fmt.expBits) : 0 < fmt.infinityMagnitude := by
  have hmax : 0 < fmt.expMax := Nat.sub_pos_of_lt (Nat.one_lt_two_pow (Nat.ne_of_gt hexp))
  exact Nat.mul_pos hmax (Nat.two_pow_pos _)

theorem isFinite_iff {bits : Nat} :
    fmt.IsFinite bits ↔ fmt.magnitude bits < fmt.infinityMagnitude := by
  have hlt := magnitude_lt fmt bits
  rw [IsFinite, exponent_eq, infinityMagnitude, ← Nat.div_lt_iff_lt_mul (Nat.two_pow_pos _)]
  have hle : fmt.magnitude bits / 2 ^ fmt.fracBits ≤ fmt.expMax := by
    rw [← infinityMagnitude_add, infinityMagnitude, ← Nat.succ_mul,
      ← Nat.div_lt_iff_lt_mul (Nat.two_pow_pos _)] at hlt
    exact Nat.le_of_lt_succ hlt
  exact ⟨fun hne => Nat.lt_of_le_of_ne hle hne, Nat.ne_of_lt⟩

theorem IsZero.isFinite {bits : Nat} (h : fmt.IsZero bits) (hexp : 0 < fmt.expBits) :
    fmt.IsFinite bits := by
  rw [isFinite_iff, show fmt.magnitude bits = 0 from h]
  exact infinityMagnitude_pos hexp

theorem IsInfinite.magnitude {bits : Nat} (h : fmt.IsInfinite bits) :
    fmt.magnitude bits = fmt.infinityMagnitude := by
  obtain ⟨hexponent, hfraction⟩ := h
  rw [exponent_eq] at hexponent
  rw [fraction_eq] at hfraction
  have hsplit := Nat.div_add_mod' (fmt.magnitude bits) (2 ^ fmt.fracBits)
  rw [hexponent, hfraction, Nat.add_zero] at hsplit
  exact hsplit.symm

/-! ## §3 What decoding finds -/

theorem unpack_nan {bits : Nat} (h : fmt.isNaN bits) :
    fmt.unpack bits = (fmt.isNegative bits, .nan) := by
  simp only [isNaN, Bool.and_eq_true, beq_iff_eq, bne_iff_ne] at h
  simp [unpack, h.1, h.2]

theorem unpack_infinite {bits : Nat} (h : fmt.IsInfinite bits) :
    fmt.unpack bits = (fmt.isNegative bits, .inf) := by
  simp [unpack, h.1, h.2]

theorem unpack_zero {bits : Nat} (hfinite : fmt.IsFinite bits) (h : fmt.IsZero bits) :
    fmt.unpack bits = (fmt.isNegative bits, .zero) := by
  rw [IsZero] at h
  have hexponent : fmt.exponent bits = 0 := by rw [exponent_eq, h, Nat.zero_div]
  have hfraction : fmt.fraction bits = 0 := by rw [fraction_eq, h, Nat.zero_mod]
  have hmax : 0 ≠ fmt.expMax := hexponent ▸ hfinite
  simp [unpack, hexponent, hfraction, hmax]

/-- A number other than zero is decoded as its significand and the exponent of its last bit. -/
theorem unpack_finite {bits : Nat} (hfinite : fmt.IsFinite bits) (h : ¬fmt.IsZero bits) :
    fmt.unpack bits = (fmt.isNegative bits, .finite (fmt.significand (fmt.magnitude bits))
      (fmt.minScale + fmt.offset (fmt.magnitude bits))) := by
  rw [IsFinite] at hfinite
  rw [IsZero] at h
  have hpos := Nat.two_pow_pos fmt.fracBits
  by_cases hlt : fmt.magnitude bits < 2 ^ fmt.fracBits
  · have hexponent : fmt.exponent bits = 0 := by rw [exponent_eq, Nat.div_eq_of_lt hlt]
    have hfraction : fmt.fraction bits = fmt.magnitude bits := by
      rw [fraction_eq, Nat.mod_eq_of_lt hlt]
    rw [hexponent] at hfinite
    simp [unpack, hexponent, hfraction, hfinite, h, offset_of_lt hlt, significand_of_lt hlt]
  · have hexponent : 1 ≤ fmt.exponent bits := by
      rw [exponent_eq, Nat.one_le_div_iff hpos]
      exact Nat.le_of_not_lt hlt
    have hscale : (fmt.exponent bits : Int) - fmt.bias - fmt.fracBits =
        fmt.minScale + fmt.offset (fmt.magnitude bits) := by
      rw [minScale, offset, ← exponent_eq]
      omega
    have hzero : fmt.exponent bits ≠ 0 := Nat.ne_of_gt hexponent
    simp [unpack, hfinite, hzero, hscale, significand, hlt, fraction_eq]

theorem isNaN_iff {bits : Nat} :
    fmt.isNaN bits ↔ ¬fmt.IsFinite bits ∧ ¬fmt.IsInfinite bits := by
  simp only [isNaN, IsFinite, IsInfinite, Bool.and_eq_true, beq_iff_eq, bne_iff_ne]
  tauto

theorem IsFinite.not_isNaN {bits : Nat} (h : fmt.IsFinite bits) : ¬fmt.isNaN bits :=
  fun hnan => (isNaN_iff.mp hnan).1 h

theorem IsInfinite.not_isNaN {bits : Nat} (h : fmt.IsInfinite bits) : ¬fmt.isNaN bits :=
  fun hnan => (isNaN_iff.mp hnan).2 h

theorem finite_or_infinite {bits : Nat} (h : ¬fmt.isNaN bits) :
    fmt.IsFinite bits ∨ fmt.IsInfinite bits := by
  rw [isNaN_iff] at h
  tauto

theorem significand_pos (fmt : Format) {m : Nat} (h : m ≠ 0) : fmt.significand m ≠ 0 := by
  have hpos := Nat.two_pow_pos fmt.fracBits
  rw [significand]
  split <;> omega

theorem number_eq_zero {m : Nat} : fmt.number m = 0 ↔ m = 0 := by
  rw [← number_zero fmt, (number_strictMono fmt).injective.eq_iff]

theorem value_eq_zero {bits : Nat} : fmt.value bits = 0 ↔ fmt.IsZero bits := by
  have hsign : sign (fmt.isNegative bits) ≠ 0 := by
    cases fmt.isNegative bits <;> simp [sign]
  rw [value, mul_eq_zero, number_eq_zero]
  exact or_iff_right hsign

/-! ## §4 Building encodings -/

section Building

variable {negative : Bool} {m : Nat}

theorem isNegative_signed (h : m < fmt.signBit) :
    fmt.isNegative (fmt.signed negative m) = negative := by
  have hpos : 0 < fmt.signBit := Nat.two_pow_pos _
  cases negative with
  | false => simp [isNegative, signed, Nat.div_eq_of_lt h]
  | true => simp [isNegative, signed, Nat.add_div_left, Nat.div_eq_of_lt h, hpos]

theorem magnitude_signed (h : m < fmt.signBit) :
    fmt.magnitude (fmt.signed negative m) = m := by
  cases negative with
  | false => simp [magnitude, signed, Nat.mod_eq_of_lt h]
  | true => simp [magnitude, signed, Nat.mod_eq_of_lt h]

theorem value_signed (h : m < fmt.signBit) :
    fmt.value (fmt.signed negative m) = sign negative * fmt.number m := by
  rw [value, isNegative_signed h, magnitude_signed h]

/-- An encoding is its magnitude with its sign. -/
theorem signed_self {bits : Nat} (h : bits < 2 ^ fmt.width) :
    fmt.signed (fmt.isNegative bits) (fmt.magnitude bits) = bits := by
  have hpos : 0 < fmt.signBit := Nat.two_pow_pos _
  have hdiv : bits / fmt.signBit < 2 := by
    rw [Nat.div_lt_iff_lt_mul hpos, signBit]
    rw [width, Nat.add_assoc, Nat.pow_add] at h
    exact h
  have hsplit := Nat.div_add_mod bits fmt.signBit
  rw [signed, isNegative, magnitude]
  generalize bits / fmt.signBit = top at hdiv hsplit ⊢
  obtain rfl | rfl : top = 0 ∨ top = 1 := by omega
  · simpa using hsplit
  · simpa using hsplit

end Building

/-! ## §5 Bits of an encoding -/

section Bits

variable {bits : Nat}

theorem isNegative_eq_testBit (bits : Nat) :
    fmt.isNegative bits = bits.testBit (fmt.expBits + fmt.fracBits) := by
  rw [isNegative, signBit, Nat.testBit_eq_decide_div_mod_eq, beq_eq_decide]

theorem testBit_exponent (bits i : Nat) :
    (fmt.exponent bits).testBit i =
      (decide (i < fmt.expBits) && bits.testBit (fmt.fracBits + i)) := by
  rw [exponent, Nat.testBit_mod_two_pow, Nat.testBit_div_two_pow, Nat.add_comm]

theorem testBit_fraction (bits i : Nat) :
    (fmt.fraction bits).testBit i = (decide (i < fmt.fracBits) && bits.testBit i) := by
  rw [fraction, Nat.testBit_mod_two_pow]

/-- `r` is the NaN with its quiet bit set; its sign and all other bits stay. -/
structure IsQuieted (fmt : Format) (nan r : Nat) : Prop where
  isNaN : fmt.isNaN r
  sign : fmt.isNegative r = fmt.isNegative nan
  testBit : ∀ i, r.testBit i = (nan.testBit i || i == fmt.fracBits - 1)

theorem isQuieted_quiet (hfrac : 0 < fmt.fracBits) (h : fmt.isNaN bits) :
    fmt.IsQuieted bits (fmt.quiet bits) := by
  have htestBit (i : Nat) :
      (fmt.quiet bits).testBit i = (bits.testBit i || i == fmt.fracBits - 1) := by
    rw [quiet, quietBit, Nat.testBit_or, Nat.testBit_two_pow, beq_eq_decide]
    simp only [eq_comm]
  refine ⟨?_, ?_, htestBit⟩
  · simp only [Format.isNaN, Bool.and_eq_true, beq_iff_eq, bne_iff_ne] at h ⊢
    refine ⟨?_, ?_⟩
    · rw [← h.1]
      apply Nat.eq_of_testBit_eq
      intro i
      have hne : (fmt.fracBits + i == fmt.fracBits - 1) = false := by
        rw [beq_eq_false_iff_ne]
        omega
      rw [testBit_exponent, testBit_exponent, htestBit, hne, Bool.or_false]
    · intro hzero
      have hset : (fmt.fraction (fmt.quiet bits)).testBit (fmt.fracBits - 1) = _ :=
        testBit_fraction _ _
      rw [hzero, htestBit] at hset
      simp [hfrac] at hset
  · have hne : (fmt.expBits + fmt.fracBits == fmt.fracBits - 1) = false := by
      rw [beq_eq_false_iff_ne]
      omega
    rw [isNegative_eq_testBit, isNegative_eq_testBit, htestBit, hne, Bool.or_false]

/-- The result where an operand is a NaN: the first NaN operand, made quiet. -/
structure IsPropagated (fmt : Format) (a b r : Nat) : Prop where
  first : fmt.isNaN a → fmt.IsQuieted a r
  second : ¬fmt.isNaN a → fmt.isNaN b → fmt.IsQuieted b r

theorem IsPropagated.of_eq {a b r : Nat} (hfrac : 0 < fmt.fracBits)
    (h : fmt.isNaN a ∨ fmt.isNaN b → r = fmt.propagateNaN a b) : fmt.IsPropagated a b r := by
  constructor
  · intro ha
    rw [h (.inl ha), propagateNaN, if_pos ha]
    exact isQuieted_quiet hfrac ha
  · intro ha hb
    rw [h (.inr hb), propagateNaN, if_neg ha]
    exact isQuieted_quiet hfrac hb

end Bits

end Format

end MeteredWasm.SoftFloat
