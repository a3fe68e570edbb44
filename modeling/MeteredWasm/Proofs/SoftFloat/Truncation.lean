import MeteredWasm.Proofs.SoftFloat.IntegralValues
import MeteredWasm.Proofs.SoftFloat.Words
import MeteredWasm.Proofs.Wasm.Entries
import MeteredWasm.Wide.Arithmetic

/-!
# Truncation to integers

An integer is what stands before the point of a number, if this fits. The range is that of the
integer and not of the number, so a number that passes a bound by less than one still fits.
-/

namespace MeteredWasm.SoftFloat

open Wasm (Value)

-- Powers of numbers are the core library's, as in the formats themselves.
attribute [local instance (high)] instPowNat

/-! ## §1 Ranges -/

/-- The integer is one of so many bits, signed or not. -/
def Fits (isSigned : Bool) (width : Nat) (i : ℤ) : Prop :=
  if isSigned then -(2 ^ (width - 1) : Nat) ≤ i ∧ i < (2 ^ (width - 1) : Nat)
  else 0 ≤ i ∧ i < (2 ^ width : Nat)

theorem fits_signed {width : Nat} {i : ℤ} :
    Fits true width i ↔ -(2 ^ (width - 1) : Nat) ≤ i ∧ i < (2 ^ (width - 1) : Nat) :=
  Iff.rfl

theorem fits_unsigned {width : Nat} {i : ℤ} :
    Fits false width i ↔ 0 ≤ i ∧ i < (2 ^ width : Nat) :=
  Iff.rfl

theorem toNat_ofInt_word {i : ℤ} (h : Fits false 32 i) : ((UInt32.ofInt i).toNat : ℤ) = i := by
  obtain ⟨hnonneg, hlt⟩ := fits_unsigned.mp h
  rw [UInt32.ofInt, UInt32.toNat_ofNat']
  omega

theorem toNat_ofInt_long {i : ℤ} (h : Fits false 64 i) : ((UInt64.ofInt i).toNat : ℤ) = i := by
  obtain ⟨hnonneg, hlt⟩ := fits_unsigned.mp h
  rw [UInt64.ofInt, UInt64.toNat_ofNat']
  omega

/-- An integer that fits is what its word stands for, in two's complement if it is signed. -/
theorem IntWidth.int?_value {t : IntWidth} {isSigned : Bool} {i : ℤ}
    (h : Fits isSigned t.bits i) : t.int? isSigned (t.value i) = some i := by
  cases isSigned with
  | false =>
    cases t with
    | word => exact congrArg some (toNat_ofInt_word h)
    | long => exact congrArg some (toNat_ofInt_long h)
  | true =>
    cases t with
    | word => exact congrArg some (Wasm.Layout.toInt_toInt32_ofInt h)
    | long => exact congrArg some (Wasm.Layout.toInt_toInt64_ofInt h)

namespace Format

variable {fmt : Format} {a width : Nat}

/-- The encoding is that of a number, and what stands before its point fits. -/
def TruncatesWithin (fmt : Format) (isSigned : Bool) (width a : Nat) : Prop :=
  fmt.IsFinite a ∧ Fits isSigned width (truncated (fmt.value a))

/-! ## §2 Magnitudes -/

theorem floor_scaled {sig : Nat} {scale : ℤ} (h : 0 ≤ scale) :
    ⌊(sig * 2 ^ scale : ℝ)⌋ = (sig * 2 ^ scale.toNat : Nat) := by
  obtain ⟨shift, rfl⟩ := Int.eq_ofNat_of_zero_le h
  have hcast : (sig * 2 ^ (shift : ℤ) : ℝ) = (sig * 2 ^ shift : Nat) := by
    rw [zpow_natCast]
    push_cast
    rfl
  rw [hcast, Int.floor_natCast, Int.toNat_natCast]

theorem floor_shifted {sig : Nat} {scale : ℤ} (h : scale ≤ 0) :
    ⌊(sig * 2 ^ scale : ℝ)⌋ = (sig / 2 ^ (-scale).toNat : Nat) := by
  obtain ⟨shift, hshift⟩ := Int.eq_ofNat_of_zero_le (Int.neg_nonneg_of_nonpos h)
  obtain rfl : scale = -(shift : ℤ) := by omega
  have hcast : (sig * 2 ^ (-(shift : ℤ)) : ℝ) = sig / (2 ^ shift : Nat) := by
    rw [zpow_neg, zpow_natCast, div_eq_mul_inv]
    push_cast
    rfl
  rw [hcast, Int.floor_div_natCast, Int.floor_natCast, neg_neg, Int.toNat_natCast,
    Int.natCast_div]

/-- A product with a power of two has as many bits as both have together. -/
theorem two_pow_le_scaled {sig shift count : Nat} (hsig : sig ≠ 0)
    (h : count < bitWidth sig + shift) : 2 ^ count ≤ sig * 2 ^ shift := by
  have hbits := bitWidth_pos.mpr hsig
  have htop : 2 ^ (count - shift) ≤ sig := two_pow_le_of_lt_bitWidth (by omega)
  exact two_pow_le_mul_two_pow htop (by omega)

/-- What truncation finds: the sign and what stands before the point, or nothing where there is no
number or where it has more than 128 bits. -/
theorem truncate_cases (fmt : Format) (a : Nat) :
    (∃ k : Nat, fmt.IsFinite a ∧ ⌊fmt.number (fmt.magnitude a)⌋ = k ∧
      truncate fmt a = some (fmt.isNegative a, k)) ∨
    truncate fmt a = none ∧
      (fmt.IsFinite a → (2 ^ 128 : Nat) ≤ ⌊fmt.number (fmt.magnitude a)⌋) := by
  by_cases hfinite : fmt.IsFinite a
  · by_cases hzero : fmt.IsZero a
    · refine .inl ⟨0, hfinite, ?_, ?_⟩
      · rw [show fmt.magnitude a = 0 from hzero, number_zero, Int.floor_zero, Nat.cast_zero]
      · rw [truncate, unpack_zero hfinite hzero]
    · have hsig : fmt.significand (fmt.magnitude a) ≠ 0 := significand_pos fmt hzero
      rw [truncate, unpack_finite hfinite hzero, number]
      dsimp only
      split_ifs with hscale hlarge
      · refine .inr ⟨rfl, fun _ => ?_⟩
        rw [floor_scaled hscale]
        exact_mod_cast two_pow_le_scaled hsig hlarge
      · exact .inl ⟨_, hfinite, floor_scaled hscale, rfl⟩
      · exact .inl ⟨_, hfinite, floor_shifted (le_of_not_ge hscale), rfl⟩
  · refine .inr ⟨?_, fun h => absurd h hfinite⟩
    by_cases hnan : fmt.isNaN a
    · rw [truncate, unpack_nan hnan]
    · rw [truncate, unpack_infinite ((finite_or_infinite hnan).resolve_left hfinite)]

theorem value_truncated (fmt : Format) (a : Nat) :
    truncated (fmt.value a) =
      if fmt.isNegative a then -⌊fmt.number (fmt.magnitude a)⌋
      else ⌊fmt.number (fmt.magnitude a)⌋ :=
  truncated_sign_mul _ (number_nonneg fmt _)

/-- What has more than 128 bits does not fit. -/
theorem not_truncatesWithin (hwidth : width ≤ 128) {isSigned : Bool}
    (h : fmt.IsFinite a → (2 ^ 128 : Nat) ≤ ⌊fmt.number (fmt.magnitude a)⌋) :
    ¬fmt.TruncatesWithin isSigned width a := by
  rintro ⟨hfinite, hfits⟩
  have hlarge := h hfinite
  -- no range reaches beyond what 128 bits hold
  have hle : 2 ^ width ≤ 2 ^ 128 := Nat.pow_le_pow_right Nat.two_pos hwidth
  have hle' : 2 ^ (width - 1) ≤ 2 ^ 127 := Nat.pow_le_pow_right Nat.two_pos (by omega)
  rw [value_truncated] at hfits
  cases isSigned with
  | false =>
    rw [fits_unsigned] at hfits
    split_ifs at hfits <;> omega
  | true =>
    rw [fits_signed] at hfits
    split_ifs at hfits <;> omega

/-! ## §3 Integers of a width -/

/-- The outcome of a truncation: what stands before the point, if it fits. -/
structure IsTruncation (fmt : Format) (isSigned : Bool) (width a : Nat) (i : Option ℤ) : Prop where
  within : fmt.TruncatesWithin isSigned width a → i = some (truncated (fmt.value a))
  outside : ¬fmt.TruncatesWithin isSigned width a → i = none

theorem IsTruncation.of_ite {isSigned : Bool} {i : ℤ} {c : Prop} [Decidable c]
    (hfinite : fmt.IsFinite a) (hvalue : truncated (fmt.value a) = i)
    (hfits : Fits isSigned width i ↔ c) :
    fmt.IsTruncation isSigned width a (if c then some i else none) := by
  -- the condition that is checked is that what stands before the point fits
  have hwithin : fmt.TruncatesWithin isSigned width a ↔ c := by
    rw [TruncatesWithin, hvalue, hfits]
    exact and_iff_right hfinite
  constructor
  · intro h
    rw [if_pos (hwithin.mp h), hvalue]
  · intro h
    rw [if_neg (fun hc => h (hwithin.mpr hc))]

theorem isTruncation_signed (hwidth : width ≤ 128) :
    fmt.IsTruncation true width a (truncateSigned fmt a width) := by
  rcases truncate_cases fmt a with ⟨k, hfinite, hfloor, htruncate⟩ | ⟨htruncate, hlarge⟩
  · have hvalue := value_truncated fmt a
    rw [hfloor] at hvalue
    rw [truncateSigned, htruncate]
    have hpos := Nat.two_pow_pos (width - 1)
    cases hnegative : fmt.isNegative a with
    | false =>
      rw [hnegative, if_neg Bool.false_ne_true] at hvalue
      refine .of_ite hfinite hvalue ?_
      rw [fits_signed]
      omega
    | true =>
      rw [hnegative, if_pos rfl] at hvalue
      refine .of_ite hfinite hvalue ?_
      rw [fits_signed]
      omega
  · rw [truncateSigned, htruncate]
    exact ⟨fun h => absurd h (not_truncatesWithin hwidth hlarge), fun _ => rfl⟩

theorem isTruncation_unsigned (hwidth : width ≤ 128) :
    fmt.IsTruncation false width a ((truncateUnsigned fmt a width).map Nat.cast) := by
  rcases truncate_cases fmt a with ⟨k, hfinite, hfloor, htruncate⟩ | ⟨htruncate, hlarge⟩
  · have hvalue := value_truncated fmt a
    rw [hfloor] at hvalue
    rw [truncateUnsigned, htruncate]
    have hpos := Nat.two_pow_pos width
    cases hnegative : fmt.isNegative a with
    | false =>
      rw [hnegative, if_neg Bool.false_ne_true] at hvalue
      dsimp only
      rw [apply_ite (Option.map Nat.cast), Option.map_some, Option.map_none]
      refine .of_ite hfinite hvalue ?_
      rw [fits_unsigned]
      omega
    | true =>
      -- a negative number fits where nothing but zero stands before its point
      rw [hnegative, if_pos rfl] at hvalue
      have hzero : Option.map Nat.cast (if k = 0 then some 0 else none) =
          if k = 0 then some (-(k : ℤ)) else none := by
        split_ifs with hk
        · rw [hk]
          rfl
        · rfl
      dsimp only
      rw [hzero]
      refine .of_ite hfinite hvalue ?_
      rw [fits_unsigned]
      omega
  · rw [truncateUnsigned, htruncate]
    exact ⟨fun h => absurd h (not_truncatesWithin hwidth hlarge), fun _ => rfl⟩

/-- The outcome of a truncation that saturates: where nothing fits, it is the given integer. -/
structure IsSaturated (fmt : Format) (isSigned : Bool) (width a : Nat) (extreme i : ℤ) : Prop where
  within : fmt.TruncatesWithin isSigned width a → i = truncated (fmt.value a)
  outside : ¬fmt.TruncatesWithin isSigned width a → i = extreme

theorem IsTruncation.isSaturated {isSigned : Bool} {o : Option ℤ}
    (h : fmt.IsTruncation isSigned width a o) (extreme : ℤ) :
    fmt.IsSaturated isSigned width a extreme (o.getD extreme) := by
  constructor
  · intro hwithin
    rw [h.within hwithin, Option.getD_some]
  · intro houtside
    rw [h.outside houtside, Option.getD_none]

theorem isSaturated_signed (hwidth : width ≤ 128) :
    fmt.IsSaturated true width a (-(2 ^ (width - 1) : Nat))
      (Wide.toSignedSaturating fmt a width) := by
  have hextreme : (-(2 ^ (width - 1)) : ℤ) = -(2 ^ (width - 1) : Nat) := by
    push_cast
    rfl
  have h := (@isTruncation_signed fmt a width hwidth).isSaturated (-(2 ^ (width - 1)))
  rw [← hextreme]
  exact h

theorem isSaturated_unsigned (hwidth : width ≤ 128) :
    fmt.IsSaturated false width a (2 ^ width - 1 : Nat)
      (Wide.toUnsignedSaturating fmt a width : Nat) := by
  have h := (@isTruncation_unsigned fmt a width hwidth).isSaturated (2 ^ width - 1 : Nat)
  rwa [Option.getD_map] at h

end Format

/-! ## §4 Instructions -/

/-- The instruction leaves what stands before the point of its operand, in two's complement if it is
signed, or it traps. -/
structure Operator.Truncates (s : FloatWidth) (t : IntWidth) (isSigned : Bool) (v : Value)
    (a : Nat) : Prop where
  within : s.format.TruncatesWithin isSigned t.bits a →
    ∃ v', (Operator.truncate s t isSigned).eval [v] = .ok v' ∧
      t.int? isSigned v' = some (SoftFloat.truncated (s.format.value a))
  outside : ¬s.format.TruncatesWithin isSigned t.bits a →
    (Operator.truncate s t isSigned).eval [v] = .error (.trap .integerOverflow)

variable {s : FloatWidth} {t : IntWidth} {isSigned : Bool} {v : Value} {a : Nat}

/-- The instruction leaves an integer that truncation finds. -/
theorem Operator.truncate_eval {o : Option ℤ} (h : s.bits? v = some a)
    (ho : o = if isSigned then truncateSigned s.format a t.bits
      else (truncateUnsigned s.format a t.bits).map Nat.cast) :
    (Operator.truncate s t isSigned).eval [v] =
      (Operator.truncated o).map t.value := by
  cases isSigned with
  | true =>
    rw [ho, Operator.eval, h]
    show (Operator.truncated (truncateSigned s.format a t.bits) >>= _) = _
    rw [if_pos rfl]
    cases truncateSigned s.format a t.bits <;> rfl
  | false =>
    rw [ho, Operator.eval, h]
    show (Operator.truncated (truncateUnsigned s.format a t.bits) >>= _) = _
    rw [if_neg Bool.false_ne_true]
    cases truncateUnsigned s.format a t.bits <;> rfl

theorem Operator.truncates (h : s.bits? v = some a) : Operator.Truncates s t isSigned v a := by
  have hwidth : t.bits ≤ 128 := by cases t <;> decide
  obtain ⟨o, ho, htruncation⟩ : ∃ o : Option ℤ,
      (Operator.truncate s t isSigned).eval [v] = (Operator.truncated o).map t.value ∧
        s.format.IsTruncation isSigned t.bits a o := by
    refine ⟨_, Operator.truncate_eval h rfl, ?_⟩
    cases isSigned with
    | true => exact Format.isTruncation_signed hwidth
    | false => exact Format.isTruncation_unsigned hwidth
  constructor
  · intro hwithin
    rw [ho, htruncation.within hwithin]
    exact ⟨_, rfl, IntWidth.int?_value hwithin.2⟩
  · intro houtside
    rw [ho, htruncation.outside houtside]
    rfl

/-- Truncation is exact, and nothing is made of a number the whole part of which does not fit, or of
what is not a number: an instruction traps then, and wide arithmetic takes the least signed or the
greatest unsigned integer. -/
theorem truncation_exact :
    (∀ (fmt : Format) (width a : Nat), width ≤ 128 →
      (fmt.IsTruncation true width a (truncateSigned fmt a width) ∧
        fmt.IsTruncation false width a ((truncateUnsigned fmt a width).map Nat.cast)) ∧
      fmt.IsSaturated true width a (-(2 ^ (width - 1) : Nat))
        (Wide.toSignedSaturating fmt a width) ∧
      fmt.IsSaturated false width a (2 ^ width - 1 : Nat)
        (Wide.toUnsignedSaturating fmt a width : Nat)) ∧
    ∀ (s : FloatWidth) (t : IntWidth) (isSigned : Bool) (v : Value) (a : Nat),
      s.bits? v = some a → Operator.Truncates s t isSigned v a :=
  ⟨fun _ _ _ hwidth => ⟨⟨Format.isTruncation_signed hwidth, Format.isTruncation_unsigned hwidth⟩,
      Format.isSaturated_signed hwidth, Format.isSaturated_unsigned hwidth⟩,
    fun _ _ _ _ _ => Operator.truncates⟩

/-- A number half below the least integer of 32 bits still fits, and the power of two above all
signed integers of 128 bits does not. -/
theorem truncation_exact_at_bounds :
    Operator.Truncates .double .word true (.f64 0xC1E0000000100000) 0xC1E0000000100000 ∧
      (Operator.truncate .double .word true).eval [.f64 0xC1E0000000100000] =
        .ok (.i32 0x80000000) ∧
      binary128.IsTruncation true 128 0x407E0000000000000000000000000000 none ∧
      binary128.IsSaturated true 128 0x407E0000000000000000000000000000 (-(2 ^ 127 : Nat))
        (-(2 ^ 127 : Nat)) := by
  have hnone : truncateSigned binary128 0x407E0000000000000000000000000000 128 = none := by
    decide +kernel
  have hleast : Wide.toSignedSaturating binary128 0x407E0000000000000000000000000000 128 =
      -(2 ^ 127 : Nat) := by
    decide +kernel
  obtain ⟨⟨htruncation, -⟩, hsaturated, -⟩ :=
    truncation_exact.1 binary128 128 0x407E0000000000000000000000000000 (by decide)
  rw [hnone] at htruncation
  rw [hleast] at hsaturated
  exact ⟨truncation_exact.2 .double .word true (.f64 0xC1E0000000100000) 0xC1E0000000100000 rfl,
    by decide +kernel, htruncation, hsaturated⟩

end MeteredWasm.SoftFloat
