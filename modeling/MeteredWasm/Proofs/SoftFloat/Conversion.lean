import MeteredWasm.Proofs.SoftFloat.Widening
import MeteredWasm.Proofs.SoftFloat.Words
import MeteredWasm.Wide.Arithmetic

/-!
# Conversions are rounded correctly

Whatever is converted to a float format, a number of another format or an integer, is a significand
under a scale already, and packing it rounds it once. So every conversion of an instruction or of
wide arithmetic is the exact number rounded, and nothing is rounded when the target is wider.
-/

namespace MeteredWasm.SoftFloat

open Wasm (Value)

-- Powers of numbers are the core library's, as in the formats themselves.
attribute [local instance (high)] instPowNat

/-! ## §1 Signed numbers -/

namespace Format

/-- The exact number `x`, which has a sign also where it is zero, is rounded. -/
structure RoundsSigned (fmt : Format) (negative : Bool) (x : ℝ) (r : Nat) : Prop where
  zero : x = 0 → r = fmt.zero negative
  nonzero : x ≠ 0 → fmt.Rounds x r

namespace RoundsSigned

variable {fmt : Format} {negative : Bool} {x : ℝ} {r : Nat}

theorem encoding (h : fmt.RoundsSigned negative x r) : r < 2 ^ fmt.width := by
  by_cases hzero : x = 0
  · rw [h.zero hzero]
    exact zero_lt negative
  · exact (h.nonzero hzero).encoding

/-- A number of the format is not changed. -/
theorem value_eq {other : Nat} (h : fmt.RoundsSigned negative (fmt.value other) r)
    (hother : fmt.IsFinite other) (hexp : 0 < fmt.expBits) :
    fmt.IsFinite r ∧ fmt.value r = fmt.value other := by
  by_cases hzero : fmt.value other = 0
  · have hr : fmt.IsZero r := by
      rw [h.zero hzero]
      exact magnitude_signed (Nat.two_pow_pos _)
    rw [hzero, value_eq_zero]
    exact ⟨hr.isFinite hexp, hr⟩
  · exact (h.nonzero hzero).value_eq hother

/-- There is one rounded number. -/
theorem unique {s : Nat} (hr : fmt.RoundsSigned negative x r) (hs : fmt.RoundsSigned negative x s)
    (hfrac : 0 < fmt.fracBits) : r = s := by
  by_cases hzero : x = 0
  · rw [hr.zero hzero, hs.zero hzero]
  · exact (hr.nonzero hzero).unique (hs.nonzero hzero) hfrac

end RoundsSigned

end Format

open Format

variable {fmt : Format}

theorem roundsSigned_roundPack (hfrac : 0 < fmt.fracBits) (hexp : 0 < fmt.expBits)
    (negative : Bool) (scale : Int) (sig : Nat) :
    fmt.RoundsSigned negative (sign negative * (sig * 2 ^ scale))
      (roundPack fmt negative scale sig false) := by
  by_cases hsig : sig = 0
  · subst hsig
    have hzero : sign negative * ((0 : Nat) * 2 ^ scale) = 0 := by simp
    exact ⟨fun _ => rfl, fun hne => absurd hzero hne⟩
  · have hrounds := @rounds_roundExact fmt scale sig hfrac hexp negative hsig
    refine ⟨fun hzero => ?_, fun _ => hrounds⟩
    exfalso
    have hpos : (0 : ℝ) < sig * 2 ^ scale :=
      mul_pos (by exact_mod_cast Nat.pos_of_ne_zero hsig) (zpow_pos two_pos _)
    cases negative <;> simp [sign, hpos.ne'] at hzero

/-! ## §2 Numbers of other formats -/

namespace Format

/-- A NaN that is quiet. -/
structure IsQuietNaN (fmt : Format) (bits : Nat) : Prop where
  isNaN : fmt.isNaN bits
  testBit : bits.testBit (fmt.fracBits - 1)

/-- `r` is an encoding of one format in another one. Numbers are rounded, but not to a wider
format. -/
structure IsConversion (source target : Format) (a r : Nat) : Prop where
  encoding : r < 2 ^ target.width
  nan : source.isNaN a → target.IsQuietNaN r ∧ target.isNegative r = source.isNegative a
  infinite : source.IsInfinite a → r = target.infinity (source.isNegative a)
  finite : source.IsFinite a →
    target.RoundsSigned (source.isNegative a) (source.value a) r
  exact : source.Within target → source.IsFinite a →
    target.IsFinite r ∧ target.value r = source.value a

theorem fraction_signed {fraction : Nat} (h : fraction < 2 ^ fmt.fracBits) (negative : Bool) :
    fmt.fraction (fmt.signed negative (fmt.infinityMagnitude + fraction)) = fraction := by
  rw [fraction_eq, magnitude_signed (infinityMagnitude_add_lt h), infinityMagnitude, Nat.mul_comm,
    Nat.mul_add_mod, Nat.mod_eq_of_lt h]

/-- The quiet NaN with a sign and a payload. -/
def quietNaN (fmt : Format) (negative : Bool) (payload : Nat) : Nat :=
  fmt.signed negative (fmt.infinityMagnitude + (payload ||| fmt.quietBit))

theorem isQuietNaN_quietNaN (hfrac : 0 < fmt.fracBits) {payload : Nat}
    (hpayload : payload < 2 ^ fmt.fracBits) (negative : Bool) :
    fmt.infinityMagnitude + (payload ||| fmt.quietBit) < fmt.signBit ∧
      fmt.IsQuietNaN (fmt.quietNaN negative payload) := by
  have hlt : payload ||| fmt.quietBit < 2 ^ fmt.fracBits :=
    Nat.or_lt_two_pow hpayload (quietBit_lt hfrac)
  have hmagnitude := infinityMagnitude_add_lt hlt
  have hquiet : (payload ||| fmt.quietBit).testBit (fmt.fracBits - 1) := by
    rw [Nat.testBit_or, quietBit, Nat.testBit_two_pow_self, Bool.or_true]
  have hexponent : fmt.exponent (fmt.quietNaN negative payload) = fmt.expMax := by
    rw [quietNaN, exponent_eq, magnitude_signed hmagnitude, infinityMagnitude, Nat.mul_comm,
      Nat.mul_add_div (Nat.two_pow_pos _), Nat.div_eq_of_lt hlt, Nat.add_zero]
  have hfraction : fmt.fraction (fmt.quietNaN negative payload) = payload ||| fmt.quietBit :=
    fraction_signed hlt negative
  refine ⟨hmagnitude, ?_, ?_⟩
  · have hne : payload ||| fmt.quietBit ≠ 0 := by
      intro hzero
      rw [hzero, Nat.zero_testBit] at hquiet
      exact absurd hquiet Bool.false_ne_true
    rw [Format.isNaN, hexponent, hfraction]
    simpa using hne
  · have hbit := @testBit_fraction fmt (fmt.quietNaN negative payload) (fmt.fracBits - 1)
    rw [hfraction, hquiet] at hbit
    exact (Bool.and_eq_true_iff.mp hbit.symm).2

end Format

variable {source target : Format} {a : Nat}

/-- A payload keeps its high bits. -/
def convertPayload (source target : Format) (payload : Nat) : Nat :=
  if source.fracBits ≤ target.fracBits then payload * 2 ^ (target.fracBits - source.fracBits)
  else payload / 2 ^ (source.fracBits - target.fracBits)

theorem convertPayload_lt {payload : Nat} (h : payload < 2 ^ source.fracBits) :
    convertPayload source target payload < 2 ^ target.fracBits := by
  rw [convertPayload]
  split
  · rename_i hle
    exact mul_two_pow_lt h (Nat.le_of_eq (Nat.add_sub_cancel' hle))
  · rename_i hnot
    rw [Nat.div_lt_iff_lt_mul (Nat.two_pow_pos _), ← Nat.pow_add,
      Nat.add_sub_cancel' (Nat.le_of_not_le hnot)]
    exact h

theorem convert_nan (h : source.isNaN a) : convert source target a =
    target.quietNaN (source.isNegative a) (convertPayload source target (source.fraction a)) := by
  rw [convert, unpack_nan h]
  rfl

theorem convert_infinite (h : source.IsInfinite a) :
    convert source target a = target.infinity (source.isNegative a) := by
  rw [convert, unpack_infinite h]

theorem convert_finite (hfrac : 0 < target.fracBits) (hexp : 0 < target.expBits)
    (hfinite : source.IsFinite a) :
    target.RoundsSigned (source.isNegative a) (source.value a) (convert source target a) := by
  by_cases hzero : source.IsZero a
  · rw [convert, unpack_zero hfinite hzero]
    exact ⟨fun _ => rfl, fun hne => absurd (value_eq_zero.mpr hzero) hne⟩
  · rw [convert, unpack_finite hfinite hzero]
    exact roundsSigned_roundPack hfrac hexp _ _ _

theorem isConversion_convert (hfrac : 0 < target.fracBits) (hexp : 0 < target.expBits)
    (hexp' : 0 < source.expBits) (a : Nat) :
    source.IsConversion target a (convert source target a) := by
  have hfinite := @convert_finite source target a hfrac hexp
  have hpayload : source.fraction a < 2 ^ source.fracBits := Nat.mod_lt _ (Nat.two_pow_pos _)
  obtain ⟨hmagnitude, hquiet⟩ := @isQuietNaN_quietNaN target hfrac _
    (convertPayload_lt hpayload) (source.isNegative a)
  refine ⟨?_, ?_, convert_infinite, hfinite, ?_⟩
  · by_cases hnan : source.isNaN a
    · rw [convert_nan hnan]
      exact signed_lt _ hmagnitude
    · rcases finite_or_infinite hnan with h | h
      · exact (hfinite h).encoding
      · rw [convert_infinite h]
        exact infinity_lt _
  · intro hnan
    rw [convert_nan hnan]
    exact ⟨hquiet, isNegative_signed hmagnitude⟩
  · intro hwithin h
    obtain ⟨other, hother, hvalue⟩ := hwithin.exists_value hexp' h
    have hrounds := hfinite h
    rw [← hvalue] at hrounds ⊢
    exact hrounds.value_eq hother hexp

/-! ## §3 Integers -/

theorem roundsSigned_ofSignedNat (hfrac : 0 < fmt.fracBits) (hexp : 0 < fmt.expBits)
    (negative : Bool) (magnitude : Nat) :
    fmt.RoundsSigned negative (sign negative * magnitude)
      (ofSignedNat fmt negative magnitude) := by
  have hrounds := roundsSigned_roundPack hfrac hexp negative 0 magnitude
  rwa [zpow_zero, mul_one] at hrounds

theorem sign_mul_natAbs (i : Int) : sign (decide (i < 0)) * i.natAbs = i := by
  rcases lt_or_ge i 0 with h | h
  · rw [decide_eq_true h, sign, if_pos rfl, Nat.cast_natAbs, abs_of_neg h]
    push_cast
    ring
  · rw [decide_eq_false (not_lt.mpr h), sign, if_neg Bool.false_ne_true, Nat.cast_natAbs,
      abs_of_nonneg h, one_mul]

/-- An integer is rounded as its sign and its magnitude are; there is one zero. -/
theorem roundsSigned_ofInt (hfrac : 0 < fmt.fracBits) (hexp : 0 < fmt.expBits) (i : Int) :
    fmt.RoundsSigned false i (ofInt fmt i) := by
  have hrounds := roundsSigned_ofSignedNat hfrac hexp (decide (i < 0)) i.natAbs
  rw [sign_mul_natAbs] at hrounds
  refine ⟨?_, hrounds.nonzero⟩
  intro hzero
  rw [Int.cast_eq_zero] at hzero
  rw [hzero]
  rfl

/-! ## §4 Instructions -/

theorem FloatWidth.widths_pos (w : FloatWidth) : 0 < w.format.fracBits ∧ 0 < w.format.expBits := by
  cases w <;> decide

theorem Operator.convert_leaves {s : IntWidth} {isSigned : Bool} (t : FloatWidth) {v : Value}
    {i : Int} (h : s.int? isSigned v = some i) :
    (Operator.convert s isSigned t).Leaves [v] t (t.format.RoundsSigned false i) := by
  have heval : (Operator.convert s isSigned t).eval [v] = .ok (t.value (ofInt t.format i)) := by
    rw [Operator.eval, h]
    rfl
  have hrounds := roundsSigned_ofInt t.widths_pos.1 t.widths_pos.2 i
  exact .of_eval heval hrounds.encoding hrounds

theorem Operator.promote_leaves (bits : UInt32) :
    Operator.promote.Leaves [.f32 bits] .double (binary32.IsConversion binary64 bits.toNat) := by
  have hconversion := @isConversion_convert binary32 binary64 (by decide) (by decide) (by decide)
    bits.toNat
  exact .of_eval rfl hconversion.encoding hconversion

theorem Operator.demote_leaves (bits : UInt64) :
    Operator.demote.Leaves [.f64 bits] .single (binary64.IsConversion binary32 bits.toNat) := by
  have hconversion := @isConversion_convert binary64 binary32 (by decide) (by decide) (by decide)
    bits.toNat
  exact .of_eval rfl hconversion.encoding hconversion

/-! ## §5 Wide arithmetic -/

theorem toNat_ofBits {bits : Nat} (h : bits < 2 ^ binary128.width) :
    (Wide.ofBits bits).toNat = bits :=
  (BitVec.toNat_ofNat bits 128).trans (Nat.mod_eq_of_lt h)

/-- A result in double precision fits its word. -/
theorem toNat_double {bits : Nat} (h : bits < 2 ^ binary64.width) :
    (UInt64.ofNat bits).toNat = bits :=
  UInt64.toNat_ofNat_of_lt' h

theorem roundsSigned_quadOfInt (i : Int) :
    binary128.RoundsSigned false i (Wide.quadOfInt i).toNat := by
  have hrounds := @roundsSigned_ofInt binary128 (by decide) (by decide) i
  rwa [Wide.quadOfInt, toNat_ofBits hrounds.encoding]

theorem roundsSigned_doubleOfSigned (a : Wide.Word) :
    binary64.RoundsSigned false a.toInt (Wide.doubleOfSigned a).toNat := by
  have hrounds := @roundsSigned_ofInt binary64 (by decide) (by decide) a.toInt
  rwa [Wide.doubleOfSigned, toNat_double hrounds.encoding]

theorem roundsSigned_doubleOfUnsigned (a : Wide.Word) :
    binary64.RoundsSigned false a.toNat (Wide.doubleOfUnsigned a).toNat := by
  have hrounds := @roundsSigned_ofSignedNat binary64 (by decide) (by decide) false a.toNat
  rw [Wide.doubleOfUnsigned, toNat_double hrounds.encoding]
  rwa [sign, if_neg Bool.false_ne_true, one_mul] at hrounds

theorem isConversion_quadOfSingle (bits : UInt32) :
    binary32.IsConversion binary128 bits.toNat (Wide.quadOfSingle bits).toNat := by
  have hconversion := @isConversion_convert binary32 binary128 (by decide) (by decide) (by decide)
    bits.toNat
  rwa [Wide.quadOfSingle, toNat_ofBits hconversion.encoding]

theorem isConversion_quadOfDouble (bits : UInt64) :
    binary64.IsConversion binary128 bits.toNat (Wide.quadOfDouble bits).toNat := by
  have hconversion := @isConversion_convert binary64 binary128 (by decide) (by decide) (by decide)
    bits.toNat
  rwa [Wide.quadOfDouble, toNat_ofBits hconversion.encoding]

theorem isConversion_quadToDouble (a : Wide.Word) :
    binary128.IsConversion binary64 a.toNat (Wide.quadToDouble a).toNat := by
  have hconversion := @isConversion_convert binary128 binary64 (by decide) (by decide) (by decide)
    a.toNat
  rwa [Wide.quadToDouble, toNat_double hconversion.encoding]

theorem isConversion_quadToSingle (a : Wide.Word) :
    binary128.IsConversion binary32 a.toNat (Wide.quadToSingle a).toNat := by
  have hconversion := @isConversion_convert binary128 binary32 (by decide) (by decide) (by decide)
    a.toNat
  have hword : (Wide.quadToSingle a).toNat = convert binary128 binary32 a.toNat :=
    UInt32.toNat_ofNat_of_lt' hconversion.encoding
  rwa [hword]

/-- In all three formats and between any two of them, every conversion is the exact number rounded
once, to nearest and ties to even: of encodings, of signed magnitudes and of integers, as
instructions convert them and as wide arithmetic does. -/
theorem conversions_correctly_rounded :
    (∀ source ∈ [binary32, binary64, binary128], ∀ target ∈ [binary32, binary64, binary128],
      ∀ a, source.IsConversion target a (convert source target a)) ∧
    (∀ fmt ∈ [binary32, binary64, binary128],
      (∀ (negative : Bool) (magnitude : Nat), fmt.RoundsSigned negative
        (sign negative * magnitude) (ofSignedNat fmt negative magnitude)) ∧
      ∀ i : Int, fmt.RoundsSigned false i (ofInt fmt i)) ∧
    ((∀ (s : IntWidth) (isSigned : Bool) (t : FloatWidth) (v : Value) (i : Int),
        s.int? isSigned v = some i →
          (Operator.convert s isSigned t).Leaves [v] t (t.format.RoundsSigned false i)) ∧
      (∀ bits, Operator.promote.Leaves [.f32 bits] .double
        (binary32.IsConversion binary64 bits.toNat)) ∧
      ∀ bits, Operator.demote.Leaves [.f64 bits] .single
        (binary64.IsConversion binary32 bits.toNat)) ∧
    ((∀ i : Int, binary128.RoundsSigned false i (Wide.quadOfInt i).toNat) ∧
      (∀ bits, binary32.IsConversion binary128 bits.toNat (Wide.quadOfSingle bits).toNat) ∧
      ∀ bits, binary64.IsConversion binary128 bits.toNat (Wide.quadOfDouble bits).toNat) ∧
    (∀ a, binary128.IsConversion binary64 a.toNat (Wide.quadToDouble a).toNat ∧
      binary128.IsConversion binary32 a.toNat (Wide.quadToSingle a).toNat) ∧
    ∀ a, binary64.RoundsSigned false a.toInt (Wide.doubleOfSigned a).toNat ∧
      binary64.RoundsSigned false a.toNat (Wide.doubleOfUnsigned a).toNat := by
  refine ⟨?formats, ?integers, ?instructions, ?toQuad, ?ofQuad, ?wideIntegers⟩
  case formats =>
    intro source hsource target htarget a
    obtain ⟨hfrac, hexp, -⟩ := widths_of_mem htarget
    exact isConversion_convert hfrac hexp (widths_of_mem hsource).2.1 a
  case integers =>
    intro fmt hfmt
    obtain ⟨hfrac, hexp, -⟩ := widths_of_mem hfmt
    exact ⟨roundsSigned_ofSignedNat hfrac hexp, roundsSigned_ofInt hfrac hexp⟩
  case instructions =>
    exact ⟨fun _ _ t _ _ h => Operator.convert_leaves t h, Operator.promote_leaves,
      Operator.demote_leaves⟩
  case toQuad =>
    exact ⟨roundsSigned_quadOfInt, isConversion_quadOfSingle, isConversion_quadOfDouble⟩
  case ofQuad => exact fun a => ⟨isConversion_quadToDouble a, isConversion_quadToSingle a⟩
  case wideIntegers =>
    exact fun a => ⟨roundsSigned_doubleOfSigned a, roundsSigned_doubleOfUnsigned a⟩

/-- Two numbers half way between neighbours that are rounded in opposite directions: three halves of
the least subnormal number of single precision, in quadruple precision and negative, and an odd
integer of 25 bits. -/
theorem conversions_of_ties :
    binary128.IsConversion binary32 0xBF6A8000000000000000000000000000 0x80000002 ∧
      (Operator.convert .word true .single).Leaves [.i32 0x1000001] .single
        (binary32.RoundsSigned false (0x1000001 : Int)) ∧
      (Operator.convert .word true .single).eval [.i32 0x1000001] = .ok (.f32 0x4B800000) := by
  have hconvert : convert binary128 binary32 0xBF6A8000000000000000000000000000 = 0x80000002 := by
    decide +kernel
  have hconversion := conversions_correctly_rounded.1 binary128 (by decide) binary32 (by decide)
    0xBF6A8000000000000000000000000000
  rw [hconvert] at hconversion
  exact ⟨hconversion,
    conversions_correctly_rounded.2.2.1.1 .word true .single (.i32 0x1000001) 0x1000001 rfl,
    by decide +kernel⟩

end MeteredWasm.SoftFloat
