import MeteredWasm.Proofs.SoftFloat.Nearest
import MeteredWasm.SoftFloat.Rounding

/-!
# Packing a significand rounds once

Where a significand ends on the grid of its exponent follows from what its shift drops. The grid is
the one of the precision or the finest one, whichever is coarser, so a result is rounded at one
place only, subnormal or not. A remainder that is parked in the last bit of a wider significand
leaves the number between the same neighbours.
-/

namespace MeteredWasm.SoftFloat

-- Powers of numbers are the core library's, as in the formats themselves.
attribute [local instance (high)] instPowNat

open Format

/-! ## §1 Widths and shifts -/

/-- In every format a number has an exponent and a fraction, and fits into a word of 128 bits. -/
theorem widths_of_mem {fmt : Format} (h : fmt ∈ [binary32, binary64, binary128]) :
    0 < fmt.fracBits ∧ 0 < fmt.expBits ∧ fmt.fracBits ≤ 112 := by
  revert h
  revert fmt
  decide

theorem bitWidth_le_iff {n count : Nat} : bitWidth n ≤ count ↔ n < 2 ^ count := by
  rw [bitWidth]
  split
  · rename_i hzero
    simp [hzero]
  · rename_i hne
    rw [Nat.add_one_le_iff, Nat.log2_lt hne]

theorem lt_two_pow_bitWidth (n : Nat) : n < 2 ^ bitWidth n :=
  bitWidth_le_iff.mp (Nat.le_refl _)

theorem two_pow_le_of_lt_bitWidth {n count : Nat} (h : count < bitWidth n) : 2 ^ count ≤ n :=
  Nat.le_of_not_lt fun hlt => Nat.not_le_of_lt h (bitWidth_le_iff.mpr hlt)

theorem bitWidth_pos {n : Nat} : 0 < bitWidth n ↔ n ≠ 0 := by
  rw [← Nat.not_le, bitWidth_le_iff, Nat.pow_zero, Nat.lt_one_iff]

/-- The top bit of a number. -/
theorem two_pow_bitWidth_sub_one_le {n : Nat} (h : n ≠ 0) : 2 ^ (bitWidth n - 1) ≤ n :=
  two_pow_le_of_lt_bitWidth (Nat.sub_one_lt_of_lt (bitWidth_pos.mpr h))

/-- A shift moves the top bit of a number. -/
theorem two_pow_le_mul_two_pow {n top shift count : Nat} (h : 2 ^ top ≤ n)
    (hle : count ≤ top + shift) : 2 ^ count ≤ n * 2 ^ shift :=
  calc 2 ^ count ≤ 2 ^ (top + shift) := Nat.pow_le_pow_right Nat.two_pos hle
    _ = 2 ^ top * 2 ^ shift := Nat.pow_add ..
    _ ≤ n * 2 ^ shift := Nat.mul_le_mul_right _ h

theorem mul_two_pow_lt {n width shift count : Nat} (h : n < 2 ^ width)
    (hle : width + shift ≤ count) : n * 2 ^ shift < 2 ^ count :=
  calc n * 2 ^ shift < 2 ^ width * 2 ^ shift :=
        Nat.mul_lt_mul_of_pos_right h (Nat.two_pow_pos _)
    _ = 2 ^ (width + shift) := (Nat.pow_add ..).symm
    _ ≤ 2 ^ count := Nat.pow_le_pow_right Nat.two_pos hle

/-- A shift to nearest is off by half a step at most, and by that only if the result is even. -/
theorem roundShift_bounds (sig : Nat) {shift : Nat} (hshift : 0 < shift) :
    2 * roundShift sig shift * 2 ^ (shift - 1) ≤ sig + 2 ^ (shift - 1) ∧
      sig ≤ (2 * roundShift sig shift + 1) * 2 ^ (shift - 1) ∧
      (sig + 2 ^ (shift - 1) = 2 * roundShift sig shift * 2 ^ (shift - 1) ∨
          sig = (2 * roundShift sig shift + 1) * 2 ^ (shift - 1) →
        roundShift sig shift % 2 = 0) := by
  have hstep : 2 ^ shift = 2 * 2 ^ (shift - 1) := by
    rw [← Nat.pow_succ', Nat.succ_eq_add_one, Nat.sub_add_cancel hshift]
  have hhalf := Nat.two_pow_pos (shift - 1)
  have hsplit : sig / 2 ^ shift * 2 ^ shift + sig % 2 ^ shift = sig := Nat.div_add_mod' sig _
  have hrem : sig % 2 ^ shift < 2 ^ shift := Nat.mod_lt _ (Nat.two_pow_pos _)
  rw [roundShift]
  generalize sig / 2 ^ shift = kept at hsplit ⊢
  generalize sig % 2 ^ shift = rem at hsplit hrem ⊢
  rw [hstep] at hsplit hrem
  generalize 2 ^ (shift - 1) = half at hsplit hrem hhalf ⊢
  have hkept : kept * (2 * half) = 2 * (kept * half) := Nat.mul_left_comm ..
  split
  · rename_i hup
    rw [show 2 * (kept + 1) * half = 2 * (kept * half) + 2 * half by ring,
      show (2 * (kept + 1) + 1) * half = 2 * (kept * half) + 3 * half by ring]
    refine ⟨?_, ?_, ?_⟩
    · omega
    · omega
    · rintro (htie | htie) <;> omega
  · rename_i hdown
    rw [show 2 * kept * half = 2 * (kept * half) by ring,
      show (2 * kept + 1) * half = 2 * (kept * half) + half by ring]
    refine ⟨?_, ?_, ?_⟩
    · omega
    · omega
    · rintro (htie | htie) <;> omega

theorem two_pow_mul_zpow (count : Nat) (exponent : Int) :
    (2 : ℝ) ^ count * 2 ^ exponent = 2 ^ (count + exponent) := by
  rw [zpow_add₀ two_ne_zero, zpow_natCast]

section Shifts

variable {sig shift : Nat} (scale : Int)

/-- A shift that drops zeros only leaves the number as it is. -/
theorem shifted_exact (h : sig % 2 ^ shift = 0) :
    ((sig / 2 ^ shift : Nat) * 2 ^ (scale + shift) : ℝ) = sig * 2 ^ scale := by
  have hsplit : sig / 2 ^ shift * 2 ^ shift = sig := Nat.div_mul_cancel (Nat.dvd_of_mod_eq_zero h)
  have hreal : ((sig / 2 ^ shift : Nat) * 2 ^ shift : ℝ) = sig := by exact_mod_cast hsplit
  rw [add_comm, ← two_pow_mul_zpow, ← mul_assoc, hreal]

/-- Any other shift leaves it between the shifted significand and the next one. -/
theorem shifted_between (h : sig % 2 ^ shift ≠ 0) :
    Between (sig / 2 ^ shift) (scale + shift) (sig * 2 ^ scale) := by
  have hstep : (0 : ℝ) < 2 ^ scale := zpow_pos two_pos _
  have hscale : (2 : ℝ) ^ (scale + shift) = 2 ^ shift * 2 ^ scale := by
    rw [two_pow_mul_zpow, add_comm]
  have hsplit : sig / 2 ^ shift * 2 ^ shift + sig % 2 ^ shift = sig := Nat.div_add_mod' sig _
  have hlt : sig % 2 ^ shift < 2 ^ shift := Nat.mod_lt _ (Nat.two_pow_pos _)
  have hlow : sig / 2 ^ shift * 2 ^ shift < sig := by omega
  have hhigh : sig < (sig / 2 ^ shift + 1) * 2 ^ shift := by
    rw [Nat.succ_mul]
    omega
  rw [between_iff, hscale, ← mul_assoc, ← mul_assoc]
  exact ⟨mul_lt_mul_of_pos_right (by exact_mod_cast hlow) hstep,
    mul_lt_mul_of_pos_right (by exact_mod_cast hhigh) hstep⟩

end Shifts

/-! ## §2 Where a significand is on its grid -/

variable (fmt : Format) (scale : Int) (sig : Nat)

/-- How far the last bit that is kept is above that of the significand. -/
def roundingShift : Int :=
  max ((bitWidth sig : Int) - (fmt.fracBits + 1)) (fmt.minScale - scale)

/-- The significand with the bits that are kept. -/
def keptSignificand : Nat :=
  if roundingShift fmt scale sig ≤ 0 then sig * 2 ^ (-roundingShift fmt scale sig).toNat
  else roundShift sig (roundingShift fmt scale sig).toNat

/-- The grid that the significand is rounded on. -/
def roundingOffset : Nat :=
  (scale + roundingShift fmt scale sig - fmt.minScale).toNat

theorem minScale_add_roundingOffset :
    fmt.minScale + roundingOffset fmt scale sig = scale + roundingShift fmt scale sig := by
  rw [roundingOffset, roundingShift]
  omega

/-- The kept significand is off by half a step at most, and by that only if it is even. -/
theorem keptSignificand_bounds :
    (2 * keptSignificand fmt scale sig - 1) * 2 ^ (scale + roundingShift fmt scale sig - 1) ≤
        (sig * 2 ^ scale : ℝ) ∧
      (sig * 2 ^ scale : ℝ) ≤
        (2 * keptSignificand fmt scale sig + 1) * 2 ^ (scale + roundingShift fmt scale sig - 1) ∧
      ((sig * 2 ^ scale : ℝ) = (2 * keptSignificand fmt scale sig - 1) *
            2 ^ (scale + roundingShift fmt scale sig - 1) ∨
          (sig * 2 ^ scale : ℝ) = (2 * keptSignificand fmt scale sig + 1) *
            2 ^ (scale + roundingShift fmt scale sig - 1) →
        keptSignificand fmt scale sig % 2 = 0) := by
  rw [keptSignificand]
  generalize roundingShift fmt scale sig = shift
  split
  · rename_i hle
    -- nothing is dropped: the number is the point itself
    obtain ⟨count, rfl⟩ : ∃ count : Nat, shift = -count := ⟨(-shift).toNat, by omega⟩
    have hhalf : (0 : ℝ) < 2 ^ (scale + -(count : Int) - 1) := zpow_pos two_pos _
    have hexact : (sig * 2 ^ scale : ℝ) =
        2 * (sig * 2 ^ count : Nat) * 2 ^ (scale + -(count : Int) - 1) := by
      have hpower : (2 : ℝ) ^ scale = 2 ^ (count + 1) * 2 ^ (scale + -(count : Int) - 1) := by
        rw [two_pow_mul_zpow]
        congr 1
        push_cast
        ring
      rw [hpower]
      push_cast
      ring
    rw [neg_neg, Int.toNat_natCast, hexact]
    refine ⟨?_, ?_, ?_⟩
    · exact mul_le_mul_of_nonneg_right (by linarith) hhalf.le
    · exact mul_le_mul_of_nonneg_right (by linarith) hhalf.le
    · rintro (htie | htie)
      · linarith [mul_right_cancel₀ hhalf.ne' htie]
      · linarith [mul_right_cancel₀ hhalf.ne' htie]
  · rename_i hpos
    -- the bounds of the shift, in halves of the step that is kept
    obtain ⟨count, rfl⟩ : ∃ count : Nat, shift = count + 1 := ⟨(shift - 1).toNat, by omega⟩
    have hstep : (0 : ℝ) < 2 ^ scale := zpow_pos two_pos _
    have hhalf : (2 : ℝ) ^ (scale + ((count : Int) + 1) - 1) = 2 ^ count * 2 ^ scale := by
      rw [two_pow_mul_zpow]
      congr 1
      ring
    have htoNat : ((count : Int) + 1).toNat = count + 1 := by omega
    obtain ⟨hlow, hhigh, heven⟩ := roundShift_bounds sig (Nat.succ_pos count)
    rw [htoNat, hhalf]
    rw [Nat.succ_eq_add_one, Nat.add_sub_cancel] at hlow hhigh heven
    generalize roundShift sig (count + 1) = kept at hlow hhigh heven ⊢
    have hlow' : (2 * (kept : ℝ) - 1) * 2 ^ count ≤ sig := by
      have hreal : 2 * (kept : ℝ) * 2 ^ count ≤ sig + 2 ^ count := by exact_mod_cast hlow
      linarith
    have hhigh' : (sig : ℝ) ≤ (2 * kept + 1) * 2 ^ count := by exact_mod_cast hhigh
    rw [← mul_assoc, ← mul_assoc]
    refine ⟨?_, ?_, ?_⟩
    · exact mul_le_mul_of_nonneg_right hlow' hstep.le
    · exact mul_le_mul_of_nonneg_right hhigh' hstep.le
    · rintro (htie | htie)
      · have hcancel := mul_right_cancel₀ hstep.ne' htie
        have hreal : (sig : ℝ) + 2 ^ count = 2 * kept * 2 ^ count := by linarith
        exact heven (.inl (by exact_mod_cast hreal))
      · have hcancel := mul_right_cancel₀ hstep.ne' htie
        exact heven (.inr (by exact_mod_cast hcancel))

variable {sig}

theorem onGrid_keptSignificand (hsig : sig ≠ 0) :
    fmt.OnGrid (sig * 2 ^ scale) (roundingOffset fmt scale sig)
      (keptSignificand fmt scale sig) := by
  have hstep : (0 : ℝ) < 2 ^ scale := zpow_pos two_pos _
  obtain ⟨hlow, hhigh, heven⟩ := keptSignificand_bounds fmt scale sig
  rw [← minScale_add_roundingOffset] at hlow hhigh heven
  refine ⟨hlow, hhigh, heven, ?_, ?_⟩
  · by_cases hleast : roundingOffset fmt scale sig = 0
    · exact .inl hleast
    · -- above the finest grid the width of the significand determines the shift
      right
      have hwidth := bitWidth_pos.mpr hsig
      have hle : (2 : ℝ) ^ (bitWidth sig - 1) ≤ sig := by
        exact_mod_cast two_pow_bitWidth_sub_one_le hsig
      have hexponent : ((fmt.fracBits + 1 : Nat) : Int) +
          (fmt.minScale + roundingOffset fmt scale sig - 1) =
          (bitWidth sig - 1 : Nat) + scale := by
        rw [roundingOffset, roundingShift] at *
        omega
      rw [two_pow_mul_zpow, hexponent, ← two_pow_mul_zpow]
      exact mul_le_mul_of_nonneg_right hle hstep.le
  · have hlt : (sig : ℝ) < 2 ^ bitWidth sig := by exact_mod_cast lt_two_pow_bitWidth sig
    have hexponent : (bitWidth sig : Int) + scale ≤
        ((fmt.fracBits + 2 : Nat) : Int) + (fmt.minScale + roundingOffset fmt scale sig - 1) := by
      rw [roundingOffset, roundingShift]
      omega
    rw [two_pow_mul_zpow]
    calc (sig * 2 ^ scale : ℝ) < 2 ^ bitWidth sig * 2 ^ scale :=
          mul_lt_mul_of_pos_right hlt hstep
      _ = 2 ^ ((bitWidth sig : Int) + scale) := two_pow_mul_zpow _ _
      _ ≤ _ := zpow_le_zpow_right₀ one_le_two hexponent

/-! ## §3 Packing -/

/-- A normal significand with its exponent stored, or an infinity if the exponent is too large. -/
theorem signed_normal {offset m : Nat} {biased : Int} (hbiased : biased = offset + 1)
    (hm : 2 ^ fmt.fracBits ≤ m) (hm' : m < 2 ^ (fmt.fracBits + 1)) (negative : Bool) :
    (if (fmt.expMax : Int) ≤ biased then fmt.infinity negative
      else fmt.signed negative (biased.toNat * 2 ^ fmt.fracBits + m % 2 ^ fmt.fracBits)) =
      fmt.signed negative (min (offset * 2 ^ fmt.fracBits + m) fmt.infinityMagnitude) := by
  have hpos := Nat.two_pow_pos fmt.fracBits
  obtain ⟨fraction, rfl⟩ := Nat.exists_eq_add_of_le hm
  have hfraction : fraction < 2 ^ fmt.fracBits := by
    rw [Nat.pow_succ] at hm'
    omega
  have hplace : offset * 2 ^ fmt.fracBits + (2 ^ fmt.fracBits + fraction) =
      (offset + 1) * 2 ^ fmt.fracBits + fraction := by
    rw [Nat.succ_mul]
    omega
  rw [hplace]
  split
  · rename_i hlarge
    have hle : fmt.infinityMagnitude ≤ (offset + 1) * 2 ^ fmt.fracBits :=
      Nat.mul_le_mul_right _ (by omega)
    rw [Nat.min_eq_right (Nat.le_add_right_of_le hle), infinity, infinityMagnitude]
  · rename_i hsmall
    have hle : (offset + 1 + 1) * 2 ^ fmt.fracBits ≤ fmt.expMax * 2 ^ fmt.fracBits :=
      Nat.mul_le_mul_right _ (by omega)
    have hlt : (offset + 1) * 2 ^ fmt.fracBits + fraction ≤ fmt.infinityMagnitude := by
      rw [Nat.succ_mul] at hle
      rw [infinityMagnitude]
      omega
    have htoNat : biased.toNat = offset + 1 := by omega
    rw [Nat.min_eq_left hlt, htoNat, Nat.add_mod_left, Nat.mod_eq_of_lt hfraction]

/-- A packed significand is the point of its grid, or an infinity. -/
theorem roundExact_eq (hexp : 0 < fmt.expBits) (negative : Bool) (hsig : sig ≠ 0) :
    roundExact fmt negative scale sig = fmt.signed negative
      (min (roundingOffset fmt scale sig * 2 ^ fmt.fracBits + keptSignificand fmt scale sig)
        fmt.infinityMagnitude) := by
  have hgrid := onGrid_keptSignificand fmt scale hsig
  have hnormal := hgrid.normal
  have hle := hgrid.le
  have hmax : 1 ≤ fmt.expMax := Nat.sub_pos_of_lt (Nat.one_lt_two_pow (Nat.ne_of_gt hexp))
  have hinfinity : 2 ^ fmt.fracBits ≤ fmt.infinityMagnitude := Nat.le_mul_of_pos_left _ hmax
  rw [roundExact, if_neg hsig]
  dsimp only
  rw [← roundingShift, ← keptSignificand, ← minScale_add_roundingOffset]
  generalize keptSignificand fmt scale sig = kept at *
  generalize roundingOffset fmt scale sig = offset at *
  -- below the least normal significand the point is the encoding itself
  by_cases hsubnormal : kept < 2 ^ fmt.fracBits
  · obtain rfl := hnormal.resolve_right (Nat.not_le_of_lt hsubnormal)
    rw [Nat.zero_mul, Nat.zero_add, Nat.min_eq_left (hsubnormal.le.trans hinfinity)]
    split
    · rename_i hzero
      rw [hzero, zero]
    · rfl
  · have hzero : kept ≠ 0 := fun h => hsubnormal (h ▸ Nat.two_pow_pos _)
    have hbiased : fmt.minScale + offset + fmt.fracBits + fmt.bias = offset + 1 := by
      rw [minScale]
      ring
    rw [if_neg hzero, if_neg hsubnormal, hbiased]
    by_cases hcarry : 2 ^ (fmt.fracBits + 1) ≤ kept
    · -- the next power of two is the first point of the next grid
      obtain rfl := Nat.le_antisymm hle hcarry
      have hplace : offset * 2 ^ fmt.fracBits + 2 ^ (fmt.fracBits + 1) =
          (offset + 1) * 2 ^ fmt.fracBits + 2 ^ fmt.fracBits := by
        rw [Nat.pow_succ, Nat.succ_mul]
        omega
      have hhalf : 2 ^ (fmt.fracBits + 1) / 2 = 2 ^ fmt.fracBits := by
        rw [Nat.pow_succ, Nat.mul_div_cancel _ Nat.two_pos]
      rw [if_pos hcarry, hplace, hhalf]
      exact signed_normal fmt (by push_cast; ring) (Nat.le_refl _)
        (Nat.pow_lt_pow_succ Nat.one_lt_two) negative
    · rw [if_neg hcarry]
      exact signed_normal fmt rfl (Nat.le_of_not_lt hsubnormal) (Nat.lt_of_not_le hcarry) negative

variable {fmt scale}

section Packing

variable (hfrac : 0 < fmt.fracBits) (hexp : 0 < fmt.expBits) (negative : Bool)

include hfrac hexp

/-- A significand without a remainder is rounded to nearest. -/
theorem rounds_roundExact (hsig : sig ≠ 0) :
    fmt.Rounds (sign negative * (sig * 2 ^ scale)) (roundExact fmt negative scale sig) := by
  have hpos : (0 : ℝ) < sig * 2 ^ scale :=
    mul_pos (by exact_mod_cast Nat.pos_of_ne_zero hsig) (zpow_pos two_pos _)
  rw [roundExact_eq fmt scale hexp negative hsig]
  exact (onGrid_keptSignificand fmt scale hsig).rounds hfrac hexp hpos negative

/-- So is every number that the significand's own precision does not tell from it. -/
theorem rounds_roundExact_between {x : ℝ} {n : Nat} {coarse : Int}
    (hn : 2 ^ (fmt.fracBits + 1) ≤ n) (hsig : Between n coarse (sig * 2 ^ scale))
    (hx : Between n coarse x) :
    fmt.Rounds (sign negative * x) (roundExact fmt negative scale sig) := by
  have hne : sig ≠ 0 := by
    rintro rfl
    simpa using hsig.pos
  rw [roundExact_eq fmt scale hexp negative hne]
  exact ((onGrid_keptSignificand fmt scale hne).of_between hn hsig hx).rounds
    hfrac hexp hx.pos negative

/-- The middle of two neighbouring points stands for all numbers between them. -/
theorem rounds_roundExact_middle {x : ℝ} {n : Nat} (hn : 2 ^ (fmt.fracBits + 1) ≤ n)
    (hx : Between n (scale + 1) x) :
    fmt.Rounds (sign negative * x) (roundExact fmt negative scale (2 * n + 1)) := by
  have hstep : (0 : ℝ) < 2 ^ scale := zpow_pos two_pos _
  refine rounds_roundExact_between hfrac hexp negative hn ?_ hx
  rw [between_iff, zpow_add_one₀ two_ne_zero]
  push_cast
  constructor <;> linarith

/-- With a remainder, all numbers up to the next significand are rounded alike, provided that the
significand is wider than the precision. -/
theorem rounds_roundPack_remainder {x : ℝ} (hword : fmt.fracBits ≤ 112)
    (hwide : fmt.fracBits + 2 ≤ bitWidth sig) (hx : Between sig scale x) :
    fmt.Rounds (sign negative * x) (roundPack fmt negative scale sig true) := by
  have hprecise : 2 ^ (fmt.fracBits + 1) ≤ 2 ^ (124 : Nat) :=
    Nat.pow_le_pow_right Nat.two_pos (by omega)
  rw [roundPack, if_pos rfl, parkRemainder]
  by_cases hfull : 128 ≤ bitWidth sig
  · -- no free bit: the last two bits are given up
    have hsig : 2 ^ (127 : Nat) ≤ sig := two_pow_le_of_lt_bitWidth hfull
    have hmiddle : withLowBit (shiftRightJam sig 1) = 2 * (sig / 2 ^ 2) + 1 := by
      rw [shiftRightJam, withLowBit]
      split
      · omega
      · rw [withLowBit]
        omega
    have hcoarse := hx.coarsen 2
    rw [show scale + ((2 : Nat) : Int) = scale + 1 + 1 by omega] at hcoarse
    rw [if_pos hfull, hmiddle]
    exact rounds_roundExact_middle hfrac hexp negative (by omega) hcoarse
  · rw [if_neg hfull]
    generalize hfree : 127 - bitWidth sig = free
    cases free with
    | zero =>
      have hsig : 2 ^ (126 : Nat) ≤ sig := two_pow_le_of_lt_bitWidth (by omega)
      have hmiddle : withLowBit (sig * 2 ^ 0) = 2 * (sig / 2 ^ 1) + 1 := by
        rw [withLowBit]
        omega
      rw [hmiddle, Int.natCast_zero, Int.sub_zero]
      exact rounds_roundExact_middle hfrac hexp negative (by omega) (hx.coarsen 1)
    | succ free =>
      -- the last bit is below the significand
      have hbelow : withLowBit (sig * 2 ^ (free + 1)) = sig * 2 ^ (free + 1) + 1 := by
        rw [withLowBit, Nat.pow_succ, ← Nat.mul_assoc, Nat.mul_div_cancel _ Nat.two_pos]
      have hstep : (0 : ℝ) < 2 ^ (scale - (free + 1 : Nat)) := zpow_pos two_pos _
      have hscale : (2 : ℝ) ^ scale = 2 ^ (free + 1) * 2 ^ (scale - (free + 1 : Nat)) := by
        rw [two_pow_mul_zpow]
        congr 1
        ring
      have hone : (1 : ℝ) < 2 ^ (free + 1) := one_lt_pow₀ one_lt_two (Nat.succ_ne_zero free)
      rw [hbelow]
      refine rounds_roundExact_between hfrac hexp negative
        (two_pow_le_of_lt_bitWidth hwide) ?_ hx
      rw [between_iff, hscale, ← mul_assoc, ← mul_assoc]
      generalize (2 : ℝ) ^ (scale - (free + 1 : Nat)) = step at hstep ⊢
      push_cast
      exact ⟨mul_lt_mul_of_pos_right (by linarith) hstep,
        mul_lt_mul_of_pos_right (by linarith) hstep⟩

/-- A significand and a part of the step to the next one, of which only is known whether there is
one. The significand has to be wider than the precision. -/
theorem rounds_roundPack_part {part : ℝ} {remainder : Bool} (hword : fmt.fracBits ≤ 112)
    (hwide : fmt.fracBits + 2 ≤ bitWidth sig) (hpart : 0 ≤ part) (hlt : part < 1)
    (hremainder : remainder = true ↔ part ≠ 0) :
    fmt.Rounds (sign negative * ((sig + part) * 2 ^ scale))
      (roundPack fmt negative scale sig remainder) := by
  cases remainder with
  | false =>
    have hzero : part = 0 := by simpa using hremainder
    have hne : sig ≠ 0 := bitWidth_pos.mp (Nat.zero_lt_of_lt hwide)
    rw [hzero, add_zero]
    exact rounds_roundExact hfrac hexp negative hne
  | true =>
    have hpos : 0 < part := lt_of_le_of_ne hpart (hremainder.mp rfl).symm
    have hstep : (0 : ℝ) < 2 ^ scale := zpow_pos two_pos _
    exact rounds_roundPack_remainder hfrac hexp negative hword hwide
      ⟨mul_lt_mul_of_pos_right (by linarith) hstep, mul_lt_mul_of_pos_right (by linarith) hstep⟩

/-- A significand from which the low bits are taken off, with the remainder that they are. -/
theorem rounds_roundPack_div {shift : Nat} (hword : fmt.fracBits ≤ 112)
    (hwide : fmt.fracBits + 2 ≤ bitWidth (sig / 2 ^ shift)) :
    fmt.Rounds (sign negative * (sig * 2 ^ scale))
      (roundPack fmt negative (scale + shift) (sig / 2 ^ shift) (sig % 2 ^ shift != 0)) := by
  by_cases hrem : sig % 2 ^ shift = 0
  · have hne : sig / 2 ^ shift ≠ 0 := bitWidth_pos.mp (Nat.zero_lt_of_lt hwide)
    rw [hrem, ← shifted_exact scale hrem]
    exact rounds_roundExact hfrac hexp negative hne
  · rw [bne_iff_ne.mpr hrem]
    exact rounds_roundPack_remainder hfrac hexp negative hword hwide (shifted_between scale hrem)

end Packing

end MeteredWasm.SoftFloat
