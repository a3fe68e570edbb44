import MeteredWasm.Proofs.Intrinsic.Steps
import MeteredWasm.Proofs.SoftFloat.Addition
import MeteredWasm.Proofs.SoftFloat.Comparison
import MeteredWasm.Proofs.SoftFloat.Conversion
import MeteredWasm.Proofs.SoftFloat.Division
import MeteredWasm.Proofs.SoftFloat.IntegralValues
import MeteredWasm.Proofs.SoftFloat.Multiplication
import MeteredWasm.Proofs.SoftFloat.SquareRoot

/-!
# Signalling NaNs

A NaN is signalling while its quiet bit is clear. What computes leaves none: NaN operands are
propagated quiet, and everything else that it leaves is a number, an infinity or the default NaN.
What hands an operand on as it is hands on a signalling NaN, too: changes of the sign, extrema, and
rounding to integral values.
-/

namespace MeteredWasm.SoftFloat

open Wasm (Signature Value)

-- Powers of numbers are the core library's, as in the formats themselves.
attribute [local instance (high)] instPowNat

namespace Format

variable {fmt : Format} {a b r : Nat}

/-! ## §1 The quiet bit -/

/-- A NaN with its quiet bit clear. -/
structure IsSignalling (fmt : Format) (bits : Nat) : Prop where
  isNaN : fmt.isNaN bits
  testBit : bits.testBit (fmt.fracBits - 1) = false

/-- Whether an encoding is a signalling NaN is seen without its sign. -/
theorem isSignalling_congr (hfrac : 0 < fmt.fracBits) (h : fmt.magnitude a = fmt.magnitude b) :
    fmt.IsSignalling a ↔ fmt.IsSignalling b := by
  have hnan : fmt.isNaN a = fmt.isNaN b := by
    rw [Format.isNaN, Format.isNaN, exponent_eq, exponent_eq, fraction_eq, fraction_eq, h]
  have hbit (c : Nat) : c.testBit (fmt.fracBits - 1) =
      (fmt.magnitude c % 2 ^ fmt.fracBits).testBit (fmt.fracBits - 1) := by
    rw [← fraction_eq, testBit_fraction, decide_eq_true (Nat.sub_one_lt_of_lt hfrac), Bool.true_and]
  have hsame : a.testBit (fmt.fracBits - 1) = b.testBit (fmt.fracBits - 1) := by
    rw [hbit a, hbit b, h]
  exact ⟨fun ha => ⟨hnan ▸ ha.isNaN, hsame ▸ ha.testBit⟩,
    fun hb => ⟨hnan ▸ hb.isNaN, hsame ▸ hb.testBit⟩⟩

theorem not_isSignalling (h : ¬fmt.isNaN r) : ¬fmt.IsSignalling r :=
  fun hsignalling => h hsignalling.isNaN

theorem IsQuietNaN.not_isSignalling (h : fmt.IsQuietNaN r) : ¬fmt.IsSignalling r := by
  intro hsignalling
  exact Bool.false_ne_true (hsignalling.testBit.symm.trans h.testBit)

theorem IsQuieted.not_isSignalling (h : fmt.IsQuieted a r) : ¬fmt.IsSignalling r := by
  have hset := h.testBit (fmt.fracBits - 1)
  rw [beq_self_eq_true, Bool.or_true] at hset
  exact IsQuietNaN.not_isSignalling ⟨h.isNaN, hset⟩

theorem IsPropagated.not_isSignalling (h : fmt.IsPropagated a b r)
    (hnan : fmt.isNaN a ∨ fmt.isNaN b) : ¬fmt.IsSignalling r := by
  by_cases ha : fmt.isNaN a
  · exact (h.first ha).not_isSignalling
  · exact (h.second ha (hnan.resolve_left ha)).not_isSignalling

/-! ## §2 Results that are built -/

theorem isQuietNaN_defaultNaN (hfrac : 0 < fmt.fracBits) : fmt.IsQuietNaN fmt.defaultNaN := by
  obtain ⟨-, hquiet⟩ := @isQuietNaN_quietNaN fmt hfrac 0 (Nat.two_pow_pos _) false
  rwa [quietNaN, Nat.zero_or] at hquiet

theorem Rounds.not_isNaN {x : ℝ} (h : fmt.Rounds x r) : ¬fmt.isNaN r := by
  rcases lt_or_ge |x| fmt.overflowThreshold with hlt | hge
  · exact (h.nearest hlt).finite.not_isNaN
  · rw [h.overflow hge]
    exact (isInfinite_infinity fmt _).not_isNaN

theorem not_isNaN_of_roundsSum (hexp : 0 < fmt.expBits) {x : ℝ} (h : RoundsSum fmt x r) :
    ¬fmt.isNaN r := by
  by_cases hx : x = 0
  · rw [h.cancelled hx]
    exact (isFinite_zero hexp false).not_isNaN
  · exact (h.rounded hx).not_isNaN

theorem not_isNaN_of_roundsSigned (hexp : 0 < fmt.expBits) {negative : Bool} {x : ℝ}
    (h : fmt.RoundsSigned negative x r) : ¬fmt.isNaN r := by
  by_cases hx : x = 0
  · rw [h.zero hx]
    exact (isFinite_zero hexp negative).not_isNaN
  · exact (h.nonzero hx).not_isNaN

section Results

variable (hfrac : 0 < fmt.fracBits) (hexp : 0 < fmt.expBits)

include hfrac hexp

theorem IsSum.not_isSignalling {negative : Bool} {x : ℝ} (h : fmt.IsSum a b negative x r) :
    ¬fmt.IsSignalling r := by
  by_cases hnan : fmt.isNaN a ∨ fmt.isNaN b
  · exact h.nan.not_isSignalling hnan
  obtain ⟨ha, hb⟩ := not_or.mp hnan
  rcases finite_or_infinite ha with hfiniteA | hinfiniteA
  · apply Format.not_isSignalling
    rcases finite_or_infinite hb with hfiniteB | hinfiniteB
    · by_cases hzeros : fmt.IsZero a ∧ fmt.IsZero b
      · rw [h.zeros hzeros.1 hzeros.2]
        exact (isFinite_zero hexp _).not_isNaN
      · exact not_isNaN_of_roundsSum hexp (h.finite hfiniteA hfiniteB hzeros)
    · rw [h.second hfiniteA hinfiniteB]
      exact (isInfinite_infinity fmt _).not_isNaN
  · by_cases hopposite : fmt.IsInfinite b ∧ fmt.isNegative a ≠ negative
    · rw [h.opposite hinfiniteA hopposite.1 hopposite.2]
      exact (isQuietNaN_defaultNaN hfrac).not_isSignalling
    · rw [h.first hinfiniteA hb fun hinfiniteB =>
        not_not.mp fun hne => hopposite ⟨hinfiniteB, hne⟩]
      exact Format.not_isSignalling ha

theorem IsProduct.not_isSignalling (h : fmt.IsProduct a b r) : ¬fmt.IsSignalling r := by
  by_cases hnan : fmt.isNaN a ∨ fmt.isNaN b
  · exact h.nan.not_isSignalling hnan
  obtain ⟨ha, hb⟩ := not_or.mp hnan
  by_cases hinvalid : fmt.IsInfinite a ∧ fmt.IsZero b ∨ fmt.IsZero a ∧ fmt.IsInfinite b
  · rw [h.invalid hinvalid]
    exact (isQuietNaN_defaultNaN hfrac).not_isSignalling
  apply Format.not_isSignalling
  obtain ⟨hleft, hright⟩ := not_or.mp hinvalid
  rcases finite_or_infinite ha with hfiniteA | hinfiniteA
  · rcases finite_or_infinite hb with hfiniteB | hinfiniteB
    · by_cases hzero : fmt.IsZero a ∨ fmt.IsZero b
      · rw [h.zero (hzero.imp (⟨·, hfiniteB⟩) (⟨hfiniteA, ·⟩))]
        exact (isFinite_zero hexp _).not_isNaN
      · obtain ⟨hneA, hneB⟩ := not_or.mp hzero
        exact (h.finite hfiniteA hfiniteB hneA hneB).not_isNaN
    · rw [h.infinite (.inr ⟨hinfiniteB, ha, fun hzero => hright ⟨hzero, hinfiniteB⟩⟩)]
      exact (isInfinite_infinity fmt _).not_isNaN
  · rw [h.infinite (.inl ⟨hinfiniteA, hb, fun hzero => hleft ⟨hinfiniteA, hzero⟩⟩)]
    exact (isInfinite_infinity fmt _).not_isNaN

theorem IsQuotient.not_isSignalling (h : fmt.IsQuotient a b r) : ¬fmt.IsSignalling r := by
  by_cases hnan : fmt.isNaN a ∨ fmt.isNaN b
  · exact h.nan.not_isSignalling hnan
  obtain ⟨ha, hb⟩ := not_or.mp hnan
  by_cases hinvalid : fmt.IsInfinite a ∧ fmt.IsInfinite b ∨ fmt.IsZero a ∧ fmt.IsZero b
  · rw [h.invalid hinvalid]
    exact (isQuietNaN_defaultNaN hfrac).not_isSignalling
  apply Format.not_isSignalling
  obtain ⟨hinfinities, hzeros⟩ := not_or.mp hinvalid
  rcases finite_or_infinite ha with hfiniteA | hinfiniteA
  · rcases finite_or_infinite hb with hfiniteB | hinfiniteB
    · by_cases hzeroB : fmt.IsZero b
      · rw [h.infinite (.inr ⟨hfiniteA, fun hzeroA => hzeros ⟨hzeroA, hzeroB⟩, hzeroB⟩)]
        exact (isInfinite_infinity fmt _).not_isNaN
      · by_cases hzeroA : fmt.IsZero a
        · rw [h.zero (.inr ⟨hzeroA, hfiniteB, hzeroB⟩)]
          exact (isFinite_zero hexp _).not_isNaN
        · exact (h.finite hfiniteA hfiniteB hzeroA hzeroB).not_isNaN
    · rw [h.zero (.inl ⟨hfiniteA, hinfiniteB⟩)]
      exact (isFinite_zero hexp _).not_isNaN
  · have hfiniteB : fmt.IsFinite b :=
      (finite_or_infinite hb).resolve_right fun hinfiniteB => hinfinities ⟨hinfiniteA, hinfiniteB⟩
    rw [h.infinite (.inl ⟨hinfiniteA, hfiniteB⟩)]
    exact (isInfinite_infinity fmt _).not_isNaN

end Results

theorem IsSquareRoot.not_isSignalling (h : fmt.IsSquareRoot a r) (hfrac : 0 < fmt.fracBits) :
    ¬fmt.IsSignalling r := by
  by_cases hnan : fmt.isNaN a
  · exact (h.nan hnan).not_isSignalling
  by_cases hzero : fmt.IsZero a
  · rw [h.zero hzero]
    exact Format.not_isSignalling hnan
  by_cases hsign : fmt.isNegative a
  · rw [h.negative hnan hzero hsign]
    exact (isQuietNaN_defaultNaN hfrac).not_isSignalling
  rcases finite_or_infinite hnan with hfinite | hinfinite
  · exact Format.not_isSignalling (h.finite hfinite hzero hsign).not_isNaN
  · rw [h.infinite hinfinite hsign]
    exact Format.not_isSignalling hnan

theorem IsConversion.not_isSignalling {source : Format} (h : source.IsConversion fmt a r)
    (hexp : 0 < fmt.expBits) : ¬fmt.IsSignalling r := by
  by_cases hnan : source.isNaN a
  · exact (h.nan hnan).1.not_isSignalling
  apply Format.not_isSignalling
  rcases finite_or_infinite hnan with hfinite | hinfinite
  · exact not_isNaN_of_roundsSigned hexp (h.finite hfinite)
  · rw [h.infinite hinfinite]
    exact (isInfinite_infinity fmt _).not_isNaN

/-! ## §3 Operands that are handed on -/

theorem isSignalling_abs (hfrac : 0 < fmt.fracBits) (a : Nat) :
    fmt.IsSignalling (abs fmt a) ↔ fmt.IsSignalling a :=
  isSignalling_congr hfrac (Nat.mod_mod _ _)

theorem isSignalling_neg (hfrac : 0 < fmt.fracBits) (a : Nat) :
    fmt.IsSignalling (neg fmt a) ↔ fmt.IsSignalling a :=
  isSignalling_congr hfrac (magnitude_neg a)

theorem isSignalling_copysign (hfrac : 0 < fmt.fracBits) (a b : Nat) :
    fmt.IsSignalling (copysign fmt a b) ↔ fmt.IsSignalling a :=
  isSignalling_congr hfrac (magnitude_signed (magnitude_lt fmt a))

theorem isSignalling_roundToIntegral (hfmt : fmt ∈ [binary32, binary64, binary128])
    (ha : a < 2 ^ fmt.width) (d : Direction) :
    fmt.IsSignalling (roundToIntegral fmt a d) ↔ fmt.IsSignalling a := by
  by_cases hfinite : fmt.IsFinite a
  · obtain ⟨hround, -⟩ := (roundToIntegral_isIntegral hfmt ha d).finite hfinite
    exact iff_of_false (Format.not_isSignalling hround.not_isNaN)
      (Format.not_isSignalling hfinite.not_isNaN)
  · rw [roundToIntegral_other hfinite]

/-- The first operand that is a NaN. Without one, it is an operand that is none. -/
def firstNaN (fmt : Format) (a b : Nat) : Nat :=
  if fmt.isNaN a then a else b

theorem isSignalling_extrema (hexp : 0 < fmt.expBits) (a b : Nat) :
    (fmt.IsSignalling (min fmt a b) ↔ fmt.IsSignalling (fmt.firstNaN a b)) ∧
      (fmt.IsSignalling (max fmt a b) ↔ fmt.IsSignalling (fmt.firstNaN a b)) := by
  by_cases ha : fmt.isNaN a
  · rw [min, max, firstNaN, if_pos ha, if_pos ha, if_pos ha]
    exact ⟨Iff.rfl, Iff.rfl⟩
  by_cases hb : fmt.isNaN b
  · rw [min, max, firstNaN, if_neg ha, if_neg ha, if_neg ha, if_pos hb, if_pos hb]
    exact ⟨Iff.rfl, Iff.rfl⟩
  have hA := Format.not_isSignalling ha
  have hB := Format.not_isSignalling hb
  rw [firstNaN, if_neg ha]
  -- the extrema of operands with an order are these operands
  rcases extrema hexp (not_or.mpr ⟨ha, hb⟩) with ⟨hmin, hmax, -⟩ | ⟨hmin, hmax, -⟩
  · rw [hmin, hmax]
    exact ⟨iff_of_false hA hB, Iff.rfl⟩
  · rw [hmin, hmax]
    exact ⟨Iff.rfl, iff_of_false hA hB⟩

end Format

open Format

/-! ## §4 Instructions -/

namespace FloatWidth

theorem format_mem (w : FloatWidth) : w.format ∈ [binary32, binary64, binary128] := by
  cases w <;> decide

theorem type_of_bits? {w : FloatWidth} {v : Value} {bits : Nat} (h : w.bits? v = some bits) :
    v.type = w.type := by
  cases w <;> cases v <;> first | rfl | cases h

theorem bits?_value_mod (w : FloatWidth) (r : Nat) :
    w.bits? (w.value r) = some (r % 2 ^ w.format.width) := by
  cases w with
  | single => exact congrArg some UInt32.toNat_ofNat'
  | double => exact congrArg some UInt64.toNat_ofNat'

/-- A word holds at least the magnitude. -/
theorem isSignalling_mod (w : FloatWidth) (r : Nat) :
    w.format.IsSignalling (r % 2 ^ w.format.width) ↔ w.format.IsSignalling r := by
  apply isSignalling_congr w.widths_pos.1
  refine Nat.mod_mod_of_dvd r (Nat.pow_dvd_pow 2 ?_)
  rw [width]
  omega

end FloatWidth

/-- Does the instruction hand a signalling NaN on? -/
def Unary.Signals (op : Unary) (fmt : Format) (a : Nat) : Prop :=
  match op with
  | .sqrt => False
  | .abs | .neg | .ceil | .floor | .trunc | .nearest => fmt.IsSignalling a

/-- Does the instruction hand a signalling NaN on? -/
def Binary.Signals (op : Binary) (fmt : Format) (a b : Nat) : Prop :=
  match op with
  | .add | .sub | .mul | .div => False
  | .min | .max => fmt.IsSignalling (fmt.firstNaN a b)
  | .copysign => fmt.IsSignalling a

theorem Unary.isSignalling_eval (op : Unary) (w : FloatWidth) {a : Nat}
    (ha : a < 2 ^ w.format.width) :
    w.format.IsSignalling (op.eval w.format a) ↔ op.Signals w.format a := by
  obtain ⟨hfrac, hexp⟩ := w.widths_pos
  cases op with
  | abs => exact isSignalling_abs hfrac a
  | neg => exact isSignalling_neg hfrac a
  | ceil | floor | trunc | nearest => exact isSignalling_roundToIntegral w.format_mem ha _
  | sqrt =>
    have hword : w.format.fracBits ≤ 60 := by cases w <;> decide
    exact iff_false_intro ((isSquareRoot_sqrt hfrac hexp hword a).not_isSignalling hfrac)

theorem Binary.isSignalling_eval (op : Binary) (w : FloatWidth) {a b : Nat}
    (ha : a < 2 ^ w.format.width) (hb : b < 2 ^ w.format.width) :
    w.format.IsSignalling (op.eval w.format a b) ↔ op.Signals w.format a b := by
  obtain ⟨hfrac, hexp⟩ := w.widths_pos
  have hprecision := (widths_of_mem w.format_mem).2.2
  cases op with
  | add => exact iff_false_intro ((isSum_add hfrac hexp ha hb).not_isSignalling hfrac hexp)
  | sub => exact iff_false_intro ((isSum_sub hfrac hexp ha hb).not_isSignalling hfrac hexp)
  | mul =>
    exact iff_false_intro ((isProduct_mul hfrac hexp hprecision a b).not_isSignalling hfrac hexp)
  | div =>
    exact iff_false_intro
      ((isQuotient_div hfrac hexp hprecision a b).not_isSignalling hfrac hexp)
  | min => exact (isSignalling_extrema hexp a b).1
  | max => exact (isSignalling_extrema hexp a b).2
  | copysign => exact isSignalling_copysign hfrac a b

/-- The instruction leaves a float value, the encoding of which has a property. So does the call
that stands for the instruction, and it does nothing else. -/
def Operator.LeavesAndReturns (op : Operator) (args : List Value) (w : FloatWidth)
    (P : Nat → Prop) : Prop :=
  ∃ v bits, op.eval args = .ok v ∧ w.bits? v = some bits ∧ P bits ∧
    ∀ (ω : Type) (host : Host ω) (c : Context ω),
      ((Intrinsic.float op).call host args).exec c = (.ok (some v), c)

theorem Operator.LeavesAndReturns.of_eval {op : Operator} {args : List Value} {w : FloatWidth}
    {r : Nat} {P : Nat → Prop} (hargs : op.signature.accepts args)
    (heval : op.eval args = .ok (w.value r)) (hP : P (r % 2 ^ w.format.width)) :
    op.LeavesAndReturns args w P := by
  refine ⟨w.value r, _, heval, w.bits?_value_mod r, hP, fun ω host c => ?_⟩
  have hsignature : (Intrinsic.float op).signature.accepts args := hargs
  rw [Intrinsic.exec_call hsignature, Intrinsic.run, heval]
  rfl

/-- The width that the operands of a width are converted to. -/
def FloatWidth.other : FloatWidth → FloatWidth
  | .single => .double
  | .double => .single

/-- The conversion of a width to the other one. -/
def FloatWidth.conversion : FloatWidth → Operator
  | .single => .promote
  | .double => .demote

theorem FloatWidth.conversion_eval {w : FloatWidth} {v : Value} {a : Nat}
    (h : w.bits? v = some a) :
    w.conversion.signature.accepts [v] ∧ w.conversion.eval [v] =
      .ok (w.other.value (SoftFloat.convert w.format w.other.format a)) := by
  cases w <;> cases v <;> cases h <;> exact ⟨rfl, rfl⟩

/-- No instruction that computes leaves a signalling NaN, and no conversion does. Changes of the
sign, extrema and rounding to integral values leave one exactly where the operand that they hand on
is one. The same holds of the calls that stand for the instructions. -/
theorem signalling_results {w : FloatWidth} {v v' : Value} {a b : Nat} (ha : w.bits? v = some a)
    (hb : w.bits? v' = some b) :
    (∀ op : Unary, (Operator.unary w op).LeavesAndReturns [v] w fun r =>
      w.format.IsSignalling r ↔ op.Signals w.format a) ∧
    (∀ op : Binary, (Operator.binary w op).LeavesAndReturns [v, v'] w fun r =>
      w.format.IsSignalling r ↔ op.Signals w.format a b) ∧
    w.conversion.LeavesAndReturns [v] w.other fun r => ¬w.other.format.IsSignalling r := by
  have hltA := FloatWidth.bits?_lt ha
  have hltB := FloatWidth.bits?_lt hb
  refine ⟨?unary, ?binary, ?conversion⟩
  case unary =>
    intro op
    have hargs : (Operator.unary w op).signature.accepts [v] := by
      simp [Signature.accepts_iff, Operator.signature, FloatWidth.type_of_bits? ha]
    have heval : (Operator.unary w op).eval [v] = .ok (w.value (op.eval w.format a)) := by
      rw [Operator.eval, ha]
      rfl
    refine .of_eval hargs heval ?_
    rw [w.isSignalling_mod, op.isSignalling_eval w hltA]
  case binary =>
    intro op
    have hargs : (Operator.binary w op).signature.accepts [v, v'] := by
      simp [Signature.accepts_iff, Operator.signature, FloatWidth.type_of_bits? ha,
        FloatWidth.type_of_bits? hb]
    have heval : (Operator.binary w op).eval [v, v'] = .ok (w.value (op.eval w.format a b)) := by
      rw [Operator.eval, ha, hb]
      rfl
    refine .of_eval hargs heval ?_
    rw [w.isSignalling_mod, op.isSignalling_eval w hltA hltB]
  case conversion =>
    obtain ⟨hargs, heval⟩ := FloatWidth.conversion_eval ha
    obtain ⟨hfrac, hexp⟩ := w.other.widths_pos
    have hconversion := isConversion_convert hfrac hexp w.widths_pos.2 a
    refine .of_eval hargs heval ?_
    rw [w.other.isSignalling_mod]
    exact hconversion.not_isSignalling hexp

/-- The lesser of a signalling NaN and a quiet one is the first of both. Their sum is quiet, and so
is the first NaN in single precision. -/
theorem signalling_results_nans :
    (Operator.binary .double .min).LeavesAndReturns
        [.f64 0x7FF0000000000001, .f64 0xFFF8000000000000] .double (fun r =>
          binary64.IsSignalling r ↔ binary64.IsSignalling 0x7FF0000000000001) ∧
      (Operator.binary .double .add).LeavesAndReturns
        [.f64 0x7FF0000000000001, .f64 0xFFF8000000000000] .double (fun r =>
          binary64.IsSignalling r ↔ False) ∧
      Operator.demote.LeavesAndReturns [.f64 0x7FF0000000000001] .single fun r =>
        ¬binary32.IsSignalling r := by
  obtain ⟨-, hbinary, hconversion⟩ := @signalling_results .double (.f64 0x7FF0000000000001)
    (.f64 0xFFF8000000000000) 0x7FF0000000000001 0xFFF8000000000000 rfl rfl
  exact ⟨hbinary .min, hbinary .add, hconversion⟩

/-- Rounding up leaves a signalling NaN as it is, and so does the lesser of two operands. -/
theorem ceil_signalling :
    binary32.IsSignalling 0x7F800001 ∧
      (Operator.unary .single .ceil).eval [.f32 0x7F800001] = .ok (.f32 0x7F800001) ∧
      (Operator.binary .single .min).eval [.f32 0x7F800001, .f32 0] = .ok (.f32 0x7F800001) :=
  ⟨⟨by decide +kernel, by decide +kernel⟩, by decide +kernel, by decide +kernel⟩

end MeteredWasm.SoftFloat
