import MeteredWasm.Proofs.SoftFloat.Rounding
import MeteredWasm.SoftFloat.Arithmetic

/-!
# Products are rounded correctly

The product of two significands is computed exactly, from four products of half words. Where it does
not fit into one word, it gives up as many low bits as leave a significand of 127 bits, which is
wider than every precision, so the remainder is enough to round the product once.
-/

namespace MeteredWasm.SoftFloat

-- Powers of numbers are the core library's, as in the formats themselves.
attribute [local instance (high)] instPowNat

open Format

/-! ## §1 Wide products -/

/-- The high and the low word from the four products of the half words. -/
theorem wide_product (half a1 a0 b1 b0 : Nat) :
    (a1 * b1 + a0 * b1 / half + a1 * b0 / half +
          (a0 * b0 / half + a0 * b1 % half + a1 * b0 % half) / half) * (half * half) +
        (a0 * b0 % half +
          (a0 * b0 / half + a0 * b1 % half + a1 * b0 % half) % half * half) =
      (a1 * half + a0) * (b1 * half + b0) := by
  have hlow := Nat.div_add_mod' (a0 * b0) half
  have hcross := Nat.div_add_mod' (a0 * b1) half
  have hcross' := Nat.div_add_mod' (a1 * b0) half
  generalize a0 * b0 / half = low at *
  generalize a0 * b1 / half = cross at *
  generalize a1 * b0 / half = cross' at *
  have hmid := Nat.div_add_mod' (low + a0 * b1 % half + a1 * b0 % half) half
  generalize (low + a0 * b1 % half + a1 * b0 % half) / half = carry at *
  generalize (low + a0 * b1 % half + a1 * b0 % half) % half = rest at *
  calc
    _ = a1 * b1 * (half * half) + (cross * half) * half + (cross' * half) * half +
          (carry * half + rest) * half + a0 * b0 % half := by ring
    _ = a1 * b1 * (half * half) + (cross * half + a0 * b1 % half) * half +
          (cross' * half + a1 * b0 % half) * half + (low * half + a0 * b0 % half) := by
        rw [hmid]
        ring
    _ = (a1 * half + a0) * (b1 * half + b0) := by
        rw [hcross, hcross', hlow]
        ring

/-- Both words are the product of two numbers, and the low one is a word. -/
theorem mulWide_eq (a b : Nat) :
    (mulWide a b).1 * 2 ^ (128 : Nat) + (mulWide a b).2 = a * b ∧
      (mulWide a b).2 < 2 ^ (128 : Nat) := by
  have hword : 2 ^ (128 : Nat) = 2 ^ (64 : Nat) * 2 ^ (64 : Nat) := by decide
  have hpos := Nat.two_pow_pos 64
  rw [mulWide, hword]
  dsimp only
  generalize 2 ^ (64 : Nat) = half at hpos ⊢
  constructor
  · rw [wide_product, Nat.div_add_mod', Nat.div_add_mod']
  · -- two digits to the base of the half words
    have hdigit := Nat.mod_lt (a % half * (b % half)) hpos
    have hdigit' := Nat.mod_lt (a % half * (b % half) / half + a % half * (b / half) % half +
      a / half * (b % half) % half) hpos
    calc
      _ < half + (half - 1) * half :=
          Nat.add_lt_add_of_lt_of_le hdigit
            (Nat.mul_le_mul_right half (Nat.le_sub_one_of_lt hdigit'))
      _ = half * half := by
          rw [Nat.add_comm, ← Nat.succ_mul, Nat.succ_eq_add_one, Nat.sub_add_cancel hpos]

/-- Both words without the last bits of the low one, and those bits. -/
theorem wide_shift {shift : Nat} (hshift : shift ≤ 128) (high low : Nat) :
    high * 2 ^ (128 - shift) + low / 2 ^ shift = (high * 2 ^ (128 : Nat) + low) / 2 ^ shift ∧
      low % 2 ^ shift = (high * 2 ^ (128 : Nat) + low) % 2 ^ shift := by
  have hsplit : high * 2 ^ (128 : Nat) = 2 ^ shift * (high * 2 ^ (128 - shift)) := by
    rw [Nat.mul_left_comm, ← Nat.pow_add, Nat.add_sub_cancel' hshift]
  rw [hsplit, Nat.mul_add_div (Nat.two_pow_pos shift), Nat.mul_add_mod]
  exact ⟨rfl, rfl⟩

/-! ## §2 Products of finite numbers -/

variable {fmt : Format}

/-- The product of two significands, in one word or as a significand of 127 bits and a remainder. -/
def packProduct (fmt : Format) (negative : Bool) (scale : Int) (high low : Nat) : Nat :=
  if high = 0 then roundPack fmt negative scale low false
  else
    roundPack fmt negative (scale + (bitWidth high + 1 : Nat))
      (high * 2 ^ (128 - (bitWidth high + 1)) + low / 2 ^ (bitWidth high + 1))
      (low % 2 ^ (bitWidth high + 1) != 0)

theorem rounds_packProduct (hfrac : 0 < fmt.fracBits) (hexp : 0 < fmt.expBits)
    (hword : fmt.fracBits ≤ 112) (negative : Bool) (scale : Int) {high low : Nat}
    (hne : high * 2 ^ (128 : Nat) + low ≠ 0) (hhigh : high < 2 ^ (98 : Nat)) :
    fmt.Rounds (sign negative * ((high * 2 ^ (128 : Nat) + low : Nat) * 2 ^ scale))
      (packProduct fmt negative scale high low) := by
  rw [packProduct]
  split
  · rename_i hzero
    rw [hzero, Nat.zero_mul, Nat.zero_add] at hne ⊢
    exact rounds_roundExact hfrac hexp negative hne
  · rename_i hpos
    have hwidth : bitWidth high ≤ 98 := bitWidth_le_iff.mpr hhigh
    obtain ⟨hsig, hrem⟩ := wide_shift (show bitWidth high + 1 ≤ 128 by omega) high low
    rw [hsig, hrem]
    refine rounds_roundPack_div hfrac hexp negative hword ?_
    -- the top bit of the high word is the 127th of the significand
    have hnonzero := bitWidth_pos.mpr hpos
    have htop := two_pow_bitWidth_sub_one_le hpos
    have hlarge : 2 ^ (126 : Nat) ≤
        (high * 2 ^ (128 : Nat) + low) / 2 ^ (bitWidth high + 1) := by
      rw [← hsig]
      exact Nat.le_add_right_of_le (two_pow_le_mul_two_pow htop (by omega))
    by_contra hnarrow
    have hlt := bitWidth_le_iff.mp (Nat.le_of_not_lt hnarrow)
    have hprecision : 2 ^ (fmt.fracBits + 1) ≤ 2 ^ (126 : Nat) :=
      Nat.pow_le_pow_right Nat.two_pos (by omega)
    omega

theorem rounds_mulWide (hfrac : 0 < fmt.fracBits) (hexp : 0 < fmt.expBits)
    (hword : fmt.fracBits ≤ 112) {sigA sigB : Nat} (hA : sigA ≠ 0) (hB : sigB ≠ 0)
    (hltA : sigA < 2 ^ (fmt.fracBits + 1)) (hltB : sigB < 2 ^ (fmt.fracBits + 1))
    (negA negB : Bool) (scaleA scaleB : Int) :
    fmt.Rounds (sign negA * (sigA * 2 ^ scaleA) * (sign negB * (sigB * 2 ^ scaleB)))
      (packProduct fmt (negA != negB) (scaleA + scaleB)
        (mulWide sigA sigB).1 (mulWide sigA sigB).2) := by
  have hproduct := (mulWide_eq sigA sigB).1
  have hexact : sign negA * (sigA * 2 ^ scaleA) * (sign negB * (sigB * 2 ^ scaleB)) =
      sign (negA != negB) * (((mulWide sigA sigB).1 * 2 ^ (128 : Nat) +
        (mulWide sigA sigB).2 : Nat) * 2 ^ (scaleA + scaleB)) := by
    rw [hproduct, ← sign_mul, zpow_add₀ two_ne_zero]
    push_cast
    ring
  have hhigh : (mulWide sigA sigB).1 < 2 ^ (98 : Nat) := by
    have hprecision : 2 ^ (fmt.fracBits + 1) ≤ 2 ^ (113 : Nat) :=
      Nat.pow_le_pow_right Nat.two_pos (by omega)
    have hlt : sigA * sigB < 2 ^ (113 : Nat) * 2 ^ (113 : Nat) :=
      Nat.mul_lt_mul'' (Nat.lt_of_lt_of_le hltA hprecision) (Nat.lt_of_lt_of_le hltB hprecision)
    omega
  rw [hexact]
  exact rounds_packProduct hfrac hexp hword _ _ (hproduct ▸ Nat.mul_ne_zero hA hB) hhigh

/-! ## §3 Products of encodings -/

namespace Format

/-- `r` is the product of two encodings. A zero or an infinity has the sign of the product. -/
structure IsProduct (fmt : Format) (a b r : Nat) : Prop where
  nan : fmt.IsPropagated a b r
  invalid : fmt.IsInfinite a ∧ fmt.IsZero b ∨ fmt.IsZero a ∧ fmt.IsInfinite b →
    r = fmt.defaultNaN
  infinite : fmt.IsInfinite a ∧ ¬fmt.isNaN b ∧ ¬fmt.IsZero b ∨
      fmt.IsInfinite b ∧ ¬fmt.isNaN a ∧ ¬fmt.IsZero a →
    r = fmt.infinity (fmt.isNegative a != fmt.isNegative b)
  zero : fmt.IsZero a ∧ fmt.IsFinite b ∨ fmt.IsFinite a ∧ fmt.IsZero b →
    r = fmt.zero (fmt.isNegative a != fmt.isNegative b)
  finite : fmt.IsFinite a → fmt.IsFinite b → ¬fmt.IsZero a → ¬fmt.IsZero b →
    fmt.Rounds (fmt.value a * fmt.value b) r

end Format

variable {a b : Nat}

theorem mul_of_isNaN (h : fmt.isNaN a ∨ fmt.isNaN b) : mul fmt a b = fmt.propagateNaN a b := by
  rcases h with h | h
  · rw [mul, unpack_nan h]
  · rw [mul, unpack_nan h]
    rcases fmt.unpack a with ⟨negative, _ | _ | _ | _⟩ <;> rfl

theorem mul_of_isInfinite (ha : fmt.IsInfinite a) (hb : ¬fmt.isNaN b) (hne : ¬fmt.IsZero b) :
    mul fmt a b = fmt.infinity (fmt.isNegative a != fmt.isNegative b) ∧
      mul fmt b a = fmt.infinity (fmt.isNegative b != fmt.isNegative a) := by
  rcases finite_or_infinite hb with hfinite | hinfinite
  · rw [mul, mul, unpack_infinite ha, unpack_finite hfinite hne]
    exact ⟨rfl, rfl⟩
  · rw [mul, mul, unpack_infinite ha, unpack_infinite hinfinite]
    exact ⟨rfl, rfl⟩

theorem mul_of_isZero (ha : fmt.IsZero a) (hb : fmt.IsFinite b) (hexp : 0 < fmt.expBits) :
    mul fmt a b = fmt.zero (fmt.isNegative a != fmt.isNegative b) ∧
      mul fmt b a = fmt.zero (fmt.isNegative b != fmt.isNegative a) := by
  by_cases hzero : fmt.IsZero b
  · rw [mul, mul, unpack_zero (ha.isFinite hexp) ha, unpack_zero hb hzero]
    exact ⟨rfl, rfl⟩
  · rw [mul, mul, unpack_zero (ha.isFinite hexp) ha, unpack_finite hb hzero]
    exact ⟨rfl, rfl⟩

theorem rounds_mul (hfrac : 0 < fmt.fracBits) (hexp : 0 < fmt.expBits)
    (hword : fmt.fracBits ≤ 112) (hfiniteA : fmt.IsFinite a) (hfiniteB : fmt.IsFinite b)
    (hzeroA : ¬fmt.IsZero a) (hzeroB : ¬fmt.IsZero b) :
    fmt.Rounds (fmt.value a * fmt.value b) (mul fmt a b) := by
  rw [mul, unpack_finite hfiniteA hzeroA, unpack_finite hfiniteB hzeroB]
  exact rounds_mulWide hfrac hexp hword (significand_pos fmt hzeroA) (significand_pos fmt hzeroB)
    (significand_lt fmt _) (significand_lt fmt _) _ _ _ _

theorem isProduct_mul (hfrac : 0 < fmt.fracBits) (hexp : 0 < fmt.expBits)
    (hword : fmt.fracBits ≤ 112) (a b : Nat) : fmt.IsProduct a b (mul fmt a b) where
  nan := .of_eq hfrac mul_of_isNaN
  invalid := by
    rintro (⟨hinfinite, hzero⟩ | ⟨hzero, hinfinite⟩)
    · rw [mul, unpack_infinite hinfinite, unpack_zero (hzero.isFinite hexp) hzero]
    · rw [mul, unpack_infinite hinfinite, unpack_zero (hzero.isFinite hexp) hzero]
  infinite := by
    rintro (⟨hinfinite, hnan, hzero⟩ | ⟨hinfinite, hnan, hzero⟩)
    · exact (mul_of_isInfinite hinfinite hnan hzero).1
    · exact (mul_of_isInfinite hinfinite hnan hzero).2
  zero := by
    rintro (⟨hzero, hfinite⟩ | ⟨hfinite, hzero⟩)
    · exact (mul_of_isZero hzero hfinite hexp).1
    · exact (mul_of_isZero hzero hfinite hexp).2
  finite := rounds_mul hfrac hexp hword

/-- In all three formats, products are the exact ones rounded once, to nearest and ties to even. -/
theorem mul_correctly_rounded (hfmt : fmt ∈ [binary32, binary64, binary128]) (a b : Nat) :
    fmt.IsProduct a b (mul fmt a b) := by
  obtain ⟨hfrac, hexp, hword⟩ := widths_of_mem hfmt
  exact isProduct_mul hfrac hexp hword a b

/-- Half of the least negative number is a tie between it and zero, and the zero keeps the sign. -/
theorem mul_least_half : binary32.IsProduct 0x80000001 0x3F000000 0x80000000 := by
  have hmul : mul binary32 0x80000001 0x3F000000 = 0x80000000 := by decide +kernel
  have hproduct := @mul_correctly_rounded binary32 (by decide) 0x80000001 0x3F000000
  rwa [hmul] at hproduct

end MeteredWasm.SoftFloat
