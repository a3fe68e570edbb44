import MeteredWasm.Proofs.SoftFloat.Division
import MeteredWasm.Proofs.SoftFloat.Multiplication
import MeteredWasm.Proofs.SoftFloat.Checked.Rounding

/-!
# Sums, products and quotients in machine words

Three guard bits, the two words of a product and the bits of a quotient all have room, since a
significand has 113 bits at most. Scales are sums and differences of those of two operands, and far
from the largest ones.
-/

namespace MeteredWasm.SoftFloat.Checked

-- Powers of numbers are the core library's, as in the formats themselves.
attribute [local instance (high)] instPowNat

open Format

/-! ## §1 Sums -/

/-- The sum of two numbers other than zero, the first one with the larger scale. -/
def addFinite (fmt : Format) (negBig : Bool) (sigBig : Nat) (scaleBig : Int)
    (negSmall : Bool) (sigSmall : Nat) (scaleSmall : Int) : Option Nat := do
  -- three guard bits keep what the alignment shifts out
  let big ← shiftLeft sigBig 3
  let distance ← count? (← scale? (scaleBig - scaleSmall))
  let small ← shiftRightJam (← shiftLeft sigSmall 3) distance
  let scale ← scale? (scaleBig - 3)
  if negBig = negSmall then roundPack fmt negBig scale (← addWord big small) false
  else if big = small then zero fmt false
  else if small < big then roundPack fmt negBig scale (← subWord big small) false
  else roundPack fmt negSmall scale (← subWord small big) false

/-- The sum of two encodings. -/
def add (fmt : Format) (a b : Nat) : Option Nat := do
  match (← unpack fmt a), (← unpack fmt b) with
  | (_, .nan), _ | _, (_, .nan) => propagateNaN fmt a b
  | (na, .inf), (nb, .inf) => if na = nb then return a else defaultNaN fmt
  | (_, .inf), _ => return a
  | _, (_, .inf) => return b
  | (na, .zero), (nb, .zero) => zero fmt (na && nb)
  | (_, .zero), _ => return b
  | _, (_, .zero) => return a
  | (na, .finite ma ea), (nb, .finite mb eb) =>
    if eb ≤ ea then addFinite fmt na ma ea nb mb eb else addFinite fmt nb mb eb na ma ea

/-- The encoding with the opposite sign. -/
def neg (fmt : Format) (a : Nat) : Option Nat := do
  return a ^^^ (← signBit fmt)

/-- The difference of two encodings. -/
def sub (fmt : Format) (a b : Nat) : Option Nat := do
  if (← isNaN fmt a) || (← isNaN fmt b) then propagateNaN fmt a b
  else add fmt a (← neg fmt b)

theorem shiftRightJam_le (x shift : Nat) : SoftFloat.shiftRightJam x shift ≤ x + 1 := by
  have hle : x / 2 ^ shift ≤ x := Nat.div_le_self ..
  rw [SoftFloat.shiftRightJam]
  split
  · omega
  · rw [withLowBit]
    omega

section Sums

variable {fmt : Format} (hfmt : fmt ∈ [binary32, binary64, binary128])

include hfmt

theorem addFinite_eq {sigBig sigSmall : Nat} {scaleBig scaleSmall : Int} (negBig negSmall : Bool)
    (hbig : IsOperand fmt sigBig scaleBig) (hsmall : IsOperand fmt sigSmall scaleSmall)
    (hle : scaleSmall ≤ scaleBig) :
    addFinite fmt negBig sigBig scaleBig negSmall sigSmall scaleSmall =
      some (SoftFloat.addFinite fmt negBig sigBig scaleBig negSmall sigSmall scaleSmall) := by
  obtain ⟨-, hltBig, hlowBig, hhighBig⟩ := hbig
  obtain ⟨-, hltSmall, hlowSmall, hhighSmall⟩ := hsmall
  have hprecision := two_pow_precision_le hfmt
  -- three guard bits above a significand
  have hbig : shiftLeft sigBig 3 = some (sigBig * 8) := shiftLeft_eq (by omega) (by omega)
  have hsmall : shiftLeft sigSmall 3 = some (sigSmall * 8) := shiftLeft_eq (by omega) (by omega)
  have hjam := @shiftRightJam_eq (sigSmall * 8) (scaleBig - scaleSmall).toNat (by omega)
  have hbound := shiftRightJam_le (sigSmall * 8) (scaleBig - scaleSmall).toNat
  simp (disch := omega) only [addFinite, hbig, hsmall, scale?_eq, count?_eq, hjam, some_bind,
    SoftFloat.addFinite]
  generalize SoftFloat.shiftRightJam (sigSmall * 8) (scaleBig - scaleSmall).toNat = small at *
  generalize hbigger : sigBig * 8 = big at *
  by_cases hsign : negBig = negSmall
  · have hsum : addWord big small = some (big + small) := addWord_eq (by omega)
    rw [if_pos hsign, if_pos hsign, hsum, some_bind]
    exact roundPack_eq hfmt negBig false (by omega) (by omega) (by omega)
  · rw [if_neg hsign, if_neg hsign]
    by_cases hsame : big = small
    · rw [if_pos hsame, if_pos hsame, zero_eq hfmt]
    · rw [if_neg hsame, if_neg hsame]
      by_cases hlt : small < big
      · rw [if_pos hlt, if_pos hlt, subWord_eq hlt.le, some_bind]
        exact roundPack_eq hfmt negBig false (by omega) (by omega) (by omega)
      · rw [if_neg hlt, if_neg hlt, subWord_eq (Nat.le_of_not_lt hlt), some_bind]
        exact roundPack_eq hfmt negSmall false (by omega) (by omega) (by omega)

theorem add_eq (a b : Nat) : add fmt a b = some (SoftFloat.add fmt a b) := by
  rw [add, SoftFloat.add, unpack_eq hfmt, unpack_eq hfmt, some_bind, some_bind]
  rcases ha : fmt.unpack a with ⟨na, _ | _ | _ | ⟨ma, ea⟩⟩ <;>
    rcases hb : fmt.unpack b with ⟨nb, _ | _ | _ | ⟨mb, eb⟩⟩
  all_goals simp only [propagateNaN_eq hfmt, zero_eq hfmt, defaultNaN_eq hfmt, Option.pure_def]
  case inf.inf => split_ifs <;> rfl
  case finite.finite =>
    have hA := isOperand_of_unpack hfmt ha
    have hB := isOperand_of_unpack hfmt hb
    by_cases hle : eb ≤ ea
    · rw [if_pos hle, if_pos hle, addFinite_eq hfmt na nb hA hB hle]
    · rw [if_neg hle, if_neg hle, addFinite_eq hfmt nb na hB hA (Int.le_of_not_le hle)]

theorem sub_eq (a b : Nat) : sub fmt a b = some (SoftFloat.sub fmt a b) := by
  obtain ⟨-, -, hsign, -⟩ := constants_eq hfmt
  simp only [sub, isNaN_eq hfmt, propagateNaN_eq hfmt, neg, hsign, add_eq hfmt, some_bind,
    Option.pure_def, SoftFloat.sub, SoftFloat.neg]
  split_ifs <;> rfl

end Sums

/-! ## §2 Products -/

/-- A word with the bits of its low half set. -/
def lowHalf : Nat := 2 ^ (64 : Nat) - 1

/-- The product of two words as the high and the low word. Here alone bits are meant to be shifted
out of a word: those of the middle part that the high word gets. -/
def mulWide (a b : Nat) : Option (Nat × Nat) := do
  let (a1, a0) := (← shiftRight a 64, a &&& lowHalf)
  let (b1, b0) := (← shiftRight b 64, b &&& lowHalf)
  let p00 ← mulWord a0 b0
  let p01 ← mulWord a0 b1
  let p10 ← mulWord a1 b0
  let p11 ← mulWord a1 b1
  let mid ← addWord (← addWord (← shiftRight p00 64) (p01 &&& lowHalf)) (p10 &&& lowHalf)
  let low := p00 &&& lowHalf ||| mid <<< 64 % 2 ^ (128 : Nat)
  let cross ← addWord (← addWord p11 (← shiftRight p01 64)) (← shiftRight p10 64)
  return (← addWord cross (← shiftRight mid 64), low)

/-- The product of two numbers, in one word or with the low bits given up to the remainder. -/
def packProduct (fmt : Format) (negative : Bool) (scale : Int) (high low : Nat) : Option Nat := do
  if high = 0 then roundPack fmt negative scale low false
  else
    let shift := bitWidth high + 1
    let sig := (← shiftLeft high (← count? (128 - shift))) ||| (← shiftRight low shift)
    let remainder := low &&& (← mask shift)
    roundPack fmt negative (← scale? (scale + shift)) sig (remainder != 0)

/-- The product of two encodings. -/
def mul (fmt : Format) (a b : Nat) : Option Nat := do
  match (← unpack fmt a), (← unpack fmt b) with
  | (_, .nan), _ | _, (_, .nan) => propagateNaN fmt a b
  | (_, .inf), (_, .zero) | (_, .zero), (_, .inf) => defaultNaN fmt
  | (na, .inf), (nb, _) | (na, _), (nb, .inf) => infinity fmt (na != nb)
  | (na, .zero), (nb, _) | (na, _), (nb, .zero) => zero fmt (na != nb)
  | (na, .finite ma ea), (nb, .finite mb eb) =>
    let (high, low) ← mulWide ma mb
    packProduct fmt (na != nb) (← scale? (ea + eb)) high low

theorem and_lowHalf (a : Nat) : a &&& lowHalf = a % 2 ^ (64 : Nat) :=
  Nat.and_two_pow_sub_one_eq_mod a 64

/-- The low half of a word and another half above it. -/
theorem or_shiftLeft (a b : Nat) :
    a % 2 ^ (64 : Nat) ||| b <<< 64 % 2 ^ (128 : Nat) =
      a % 2 ^ (64 : Nat) + b % 2 ^ (64 : Nat) * 2 ^ (64 : Nat) := by
  have hlt : a % 2 ^ (64 : Nat) < 2 ^ (64 : Nat) := Nat.mod_lt _ (Nat.two_pow_pos _)
  have hmod : b <<< 64 % 2 ^ (128 : Nat) = b % 2 ^ (64 : Nat) * 2 ^ (64 : Nat) := by
    rw [Nat.shiftLeft_eq, Nat.pow_add 2 64 64, Nat.mul_mod_mul_right]
  rw [hmod, Nat.or_comm, mul_or hlt, Nat.add_comm]

theorem mulWord_half {a b : Nat} (ha : a < 2 ^ (64 : Nat)) (hb : b < 2 ^ (64 : Nat)) :
    mulWord a b = some (a * b) := by
  have hlt : a * b < 2 ^ (64 : Nat) * 2 ^ (64 : Nat) := Nat.mul_lt_mul'' ha hb
  exact mulWord_eq (by omega)

theorem mulWide_eq {a b : Nat} (ha : a < 2 ^ (128 : Nat)) (hb : b < 2 ^ (128 : Nat)) :
    mulWide a b = some (SoftFloat.mulWide a b) := by
  have hsmall (n : Nat) : n % 2 ^ (64 : Nat) < 2 ^ (64 : Nat) := Nat.mod_lt _ (Nat.two_pow_pos _)
  have hlarge {n : Nat} (hn : n < 2 ^ (128 : Nat)) : n / 2 ^ (64 : Nat) < 2 ^ (64 : Nat) := by
    omega
  have hshift (n : Nat) : shiftRight n 64 = some (n / 2 ^ (64 : Nat)) := shiftRight_eq (by omega)
  have hhigh : (SoftFloat.mulWide a b).1 < 2 ^ (128 : Nat) := by
    have hlt : a * b < 2 ^ (128 : Nat) * 2 ^ (128 : Nat) := Nat.mul_lt_mul'' ha hb
    obtain ⟨hproduct, -⟩ := SoftFloat.mulWide_eq a b
    omega
  rw [SoftFloat.mulWide] at hhigh ⊢
  dsimp only at hhigh
  simp only [mulWide, hshift, and_lowHalf, some_bind, mulWord_half (hsmall a) (hsmall b),
    mulWord_half (hsmall a) (hlarge hb), mulWord_half (hlarge ha) (hsmall b),
    mulWord_half (hlarge ha) (hlarge hb), or_shiftLeft]
  have hlow : a % 2 ^ (64 : Nat) * (b % 2 ^ (64 : Nat)) < 2 ^ (64 : Nat) * 2 ^ (64 : Nat) :=
    Nat.mul_lt_mul'' (hsmall a) (hsmall b)
  generalize a % 2 ^ (64 : Nat) * (b % 2 ^ (64 : Nat)) = low at *
  generalize a % 2 ^ (64 : Nat) * (b / 2 ^ (64 : Nat)) = cross at *
  generalize a / 2 ^ (64 : Nat) * (b % 2 ^ (64 : Nat)) = cross' at *
  generalize a / 2 ^ (64 : Nat) * (b / 2 ^ (64 : Nat)) = high at *
  -- the middle part is the sum of three halves, and what is added to the high word is part of it
  have hmid : addWord (low / 2 ^ (64 : Nat)) (cross % 2 ^ (64 : Nat)) =
      some (low / 2 ^ (64 : Nat) + cross % 2 ^ (64 : Nat)) := addWord_eq (by omega)
  have hmid' : addWord (low / 2 ^ (64 : Nat) + cross % 2 ^ (64 : Nat)) (cross' % 2 ^ (64 : Nat)) =
      some (low / 2 ^ (64 : Nat) + cross % 2 ^ (64 : Nat) + cross' % 2 ^ (64 : Nat)) :=
    addWord_eq (by omega)
  simp only [hmid, hmid', some_bind]
  generalize low / 2 ^ (64 : Nat) + cross % 2 ^ (64 : Nat) + cross' % 2 ^ (64 : Nat) = mid at *
  rw [addWord_eq (by omega), some_bind, addWord_eq (by omega), some_bind, addWord_eq hhigh,
    some_bind, Option.pure_def]

section Products

variable {fmt : Format} (hfmt : fmt ∈ [binary32, binary64, binary128])

include hfmt

theorem packProduct_eq (negative : Bool) {scale : Int} {high low : Nat}
    (hhigh : high < 2 ^ (98 : Nat)) (hlow : low < 2 ^ (128 : Nat)) (hscaleLow : -33000 ≤ scale)
    (hscaleHigh : scale ≤ 33000) :
    packProduct fmt negative scale high low =
      some (SoftFloat.packProduct fmt negative scale high low) := by
  rw [packProduct, SoftFloat.packProduct]
  by_cases hzero : high = 0
  · rw [if_pos hzero, if_pos hzero]
    exact roundPack_eq hfmt negative false hlow (by omega) (by omega)
  · have hwidth : bitWidth high ≤ 98 := bitWidth_le_iff.mpr hhigh
    have hword : high * 2 ^ (128 - (bitWidth high + 1)) < 2 ^ (127 : Nat) :=
      mul_two_pow_lt (lt_two_pow_bitWidth high) (by omega)
    have hcount : count? (128 - ((bitWidth high + 1 : Nat) : Int)) =
        some (128 - (bitWidth high + 1)) := count?_sub (a := 128) (by omega) (by omega)
    have hleft : shiftLeft high (128 - (bitWidth high + 1)) =
        some (high * 2 ^ (128 - (bitWidth high + 1))) := shiftLeft_eq (by omega) (by omega)
    have hshift : bitWidth high + 1 < 128 := by omega
    -- the bits of the low word that are kept are below those of the high word
    have hrest : low / 2 ^ (bitWidth high + 1) < 2 ^ (128 - (bitWidth high + 1)) := by
      rw [Nat.div_lt_iff_lt_mul (Nat.two_pow_pos _), ← Nat.pow_add, Nat.sub_add_cancel hshift.le]
      exact hlow
    have hsig : high * 2 ^ (128 - (bitWidth high + 1)) + low / 2 ^ (bitWidth high + 1) <
        2 ^ (128 : Nat) := by
      have hle : 2 ^ (128 - (bitWidth high + 1)) ≤ 2 ^ (127 : Nat) :=
        Nat.pow_le_pow_right Nat.two_pos (by omega)
      omega
    simp (disch := omega) only [if_neg hzero, hcount, hleft, shiftRight_eq hshift,
      mask_eq hshift, scale?_eq, some_bind, mul_or hrest, Nat.and_two_pow_sub_one_eq_mod]
    exact roundPack_eq hfmt negative _ hsig (by omega) (by omega)

theorem mul_eq (a b : Nat) : mul fmt a b = some (SoftFloat.mul fmt a b) := by
  rw [mul, SoftFloat.mul, unpack_eq hfmt, unpack_eq hfmt, some_bind, some_bind]
  rcases ha : fmt.unpack a with ⟨na, _ | _ | _ | ⟨ma, ea⟩⟩ <;>
    rcases hb : fmt.unpack b with ⟨nb, _ | _ | _ | ⟨mb, eb⟩⟩
  all_goals simp only [propagateNaN_eq hfmt, defaultNaN_eq hfmt, infinity_eq hfmt, zero_eq hfmt]
  case finite.finite =>
    obtain ⟨-, hltA, hlowA, hhighA⟩ := isOperand_of_unpack hfmt ha
    obtain ⟨-, hltB, hlowB, hhighB⟩ := isOperand_of_unpack hfmt hb
    have hprecision := two_pow_precision_le hfmt
    obtain ⟨hproduct, hlow⟩ := SoftFloat.mulWide_eq ma mb
    have hhigh : (SoftFloat.mulWide ma mb).1 < 2 ^ (98 : Nat) := by
      have hlt : ma * mb < 2 ^ (113 : Nat) * 2 ^ (113 : Nat) :=
        Nat.mul_lt_mul'' (hltA.trans_le hprecision) (hltB.trans_le hprecision)
      omega
    have hscale : scale? (ea + eb) = some (ea + eb) := scale?_eq (by omega) (by omega)
    rw [mulWide_eq (by omega) (by omega), some_bind, hscale, some_bind,
      packProduct_eq hfmt _ hhigh hlow (by omega) (by omega), SoftFloat.packProduct]

end Products

/-! ## §3 Quotients -/

/-- A significand of `fracBits + 1` bits for the same number. -/
def normalize (fmt : Format) (sig : Nat) (scale : Int) : Option (Nat × Int) := do
  let width := bitWidth sig
  let target := fmt.fracBits + 1
  if target ≤ width then return (sig, scale)
  else
    let shift ← count? (target - width)
    return (← shiftLeft sig shift, ← scale? (scale - shift))

/-- Restoring division. -/
def divideSteps (divisor : Nat) : (steps rem quot : Nat) → Option (Nat × Nat)
  | 0, rem, quot => some (quot, rem)
  | steps + 1, rem, quot => do
    let quot ← shiftLeft quot 1
    let (rem, quot) ←
      if divisor ≤ rem then pure (← subWord rem divisor, quot ||| 1) else pure (rem, quot)
    divideSteps divisor steps (← shiftLeft rem 1) quot

/-- The quotient of two encodings. -/
def div (fmt : Format) (a b : Nat) : Option Nat := do
  match (← unpack fmt a), (← unpack fmt b) with
  | (_, .nan), _ | _, (_, .nan) => propagateNaN fmt a b
  | (_, .inf), (_, .inf) | (_, .zero), (_, .zero) => defaultNaN fmt
  | (na, .inf), (nb, _) | (na, _), (nb, .zero) => infinity fmt (na != nb)
  | (na, _), (nb, .inf) | (na, .zero), (nb, _) => zero fmt (na != nb)
  | (na, .finite ma ea), (nb, .finite mb eb) =>
    let (ma, ea) ← normalize fmt ma ea
    let (mb, eb) ← normalize fmt mb eb
    -- three bits beyond the precision of the result
    let steps := fmt.fracBits + 3
    let (quot, rem) ← divideSteps mb (steps + 1) ma 0
    let scale ← scale? ((← scale? (ea - eb)) - steps)
    roundPack fmt (na != nb) scale quot (rem != 0)

/-- The remainder stays below twice the divisor, and the quotient gets one bit with each step. -/
theorem divideSteps_eq {divisor : Nat} (hdivisor : divisor < 2 ^ (126 : Nat)) (steps : Nat)
    {rem quot width : Nat} (hrem : rem < 2 * divisor) (hquot : quot < 2 ^ width)
    (hroom : width + steps < 128) :
    divideSteps divisor steps rem quot = some (SoftFloat.divideSteps divisor steps rem quot) ∧
      (SoftFloat.divideSteps divisor steps rem quot).1 < 2 ^ (width + steps) := by
  induction steps generalizing rem quot width with
  | zero => exact ⟨rfl, hquot⟩
  | succ steps ih =>
    have hdouble : 2 ^ (width + 1) = 2 ^ width * 2 := Nat.pow_succ ..
    have hword : 2 ^ (width + 1) ≤ 2 ^ (127 : Nat) := Nat.pow_le_pow_right Nat.two_pos (by omega)
    have hshift : shiftLeft quot 1 = some (quot * 2) := shiftLeft_eq (by omega) (by omega)
    have hwidth : width + (steps + 1) = width + 1 + steps := by omega
    rw [divideSteps, SoftFloat.divideSteps, hshift, some_bind, hwidth]
    by_cases hle : divisor ≤ rem
    · have hbit : quot * 2 ||| 1 = quot * 2 + 1 := mul_or (i := 1) Nat.one_lt_two
      have hrest : shiftLeft (rem - divisor) 1 = some ((rem - divisor) * 2) :=
        shiftLeft_eq (by omega) (by omega)
      simp only [if_pos hle, subWord_eq hle, hbit, hrest, some_bind, Option.pure_def]
      exact ih (by omega) (by omega) (by omega)
    · have hrest : shiftLeft rem 1 = some (rem * 2) := shiftLeft_eq (by omega) (by omega)
      simp only [if_neg hle, hrest, some_bind, Option.pure_def]
      exact ih (by omega) (by omega) (by omega)

section Quotients

variable {fmt : Format} (hfmt : fmt ∈ [binary32, binary64, binary128])

include hfmt

theorem normalize_eq {sig : Nat} {scale : Int} (h : IsOperand fmt sig scale) :
    normalize fmt sig scale = some (SoftFloat.normalize fmt sig scale) ∧
      -16613 ≤ (SoftFloat.normalize fmt sig scale).2 ∧
      (SoftFloat.normalize fmt sig scale).2 ≤ 16500 := by
  obtain ⟨-, hlt, hlow, hhigh⟩ := h
  obtain ⟨hfrac, -⟩ := bounds_of_mem hfmt
  have hwidth : bitWidth sig ≤ fmt.fracBits + 1 := bitWidth_le_iff.mpr hlt
  rw [normalize, SoftFloat.normalize]
  refine ⟨?_, by dsimp only; omega, by dsimp only; omega⟩
  by_cases hall : fmt.fracBits + 1 ≤ bitWidth sig
  · rw [if_pos hall, Nat.sub_eq_zero_of_le hall, Nat.pow_zero, Nat.mul_one, Int.natCast_zero,
      Int.sub_zero, Option.pure_def]
  · have hcount : count? ((fmt.fracBits + 1 : Nat) - (bitWidth sig : Int)) =
        some (fmt.fracBits + 1 - bitWidth sig) := count?_sub hwidth (by omega)
    have hshift : shiftLeft sig (fmt.fracBits + 1 - bitWidth sig) =
        some (sig * 2 ^ (fmt.fracBits + 1 - bitWidth sig)) :=
      shiftLeft_eq (by omega) (mul_two_pow_lt (lt_two_pow_bitWidth sig) (by omega))
    simp (disch := omega) only [if_neg hall, hcount, hshift, scale?_eq, some_bind,
      Option.pure_def]

theorem div_eq (a b : Nat) : div fmt a b = some (SoftFloat.div fmt a b) := by
  rw [div, SoftFloat.div, unpack_eq hfmt, unpack_eq hfmt, some_bind, some_bind]
  rcases ha : fmt.unpack a with ⟨na, _ | _ | _ | ⟨ma, ea⟩⟩ <;>
    rcases hb : fmt.unpack b with ⟨nb, _ | _ | _ | ⟨mb, eb⟩⟩
  all_goals simp only [propagateNaN_eq hfmt, defaultNaN_eq hfmt, infinity_eq hfmt, zero_eq hfmt]
  case finite.finite =>
    have hA := isOperand_of_unpack hfmt ha
    have hB := isOperand_of_unpack hfmt hb
    obtain ⟨hnormA, hlowA, hhighA⟩ := normalize_eq hfmt hA
    obtain ⟨hnormB, hlowB, hhighB⟩ := normalize_eq hfmt hB
    obtain ⟨-, hltA, -⟩ := normalize_spec hA.ne_zero hA.lt ea
    obtain ⟨hleB, hltB, -⟩ := normalize_spec hB.ne_zero hB.lt eb
    obtain ⟨hfrac, -⟩ := bounds_of_mem hfmt
    rw [hnormA, some_bind, hnormB, some_bind]
    generalize SoftFloat.normalize fmt ma ea = normA at *
    generalize SoftFloat.normalize fmt mb eb = normB at *
    obtain ⟨sigA, scaleA⟩ := normA
    obtain ⟨sigB, scaleB⟩ := normB
    dsimp only at *
    have hdouble : 2 ^ (fmt.fracBits + 1) = 2 * 2 ^ fmt.fracBits := Nat.pow_succ'
    have hprecision := two_pow_precision_le hfmt
    obtain ⟨hsteps, hquot⟩ := @divideSteps_eq sigB (by omega) (fmt.fracBits + 3 + 1) sigA 0 0
      (by omega) (by omega) (by omega)
    have hword : 2 ^ (0 + (fmt.fracBits + 3 + 1)) ≤ 2 ^ (128 : Nat) :=
      Nat.pow_le_pow_right Nat.two_pos (by omega)
    simp (disch := omega) only [hsteps, scale?_eq, some_bind]
    exact roundPack_eq hfmt _ _ (hquot.trans_le hword) (by omega) (by omega)

end Quotients

end MeteredWasm.SoftFloat.Checked
