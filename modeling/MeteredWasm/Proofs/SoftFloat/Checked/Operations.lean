import MeteredWasm.Proofs.SoftFloat.Checked.Arithmetic
import MeteredWasm.Proofs.SoftFloat.Checked.Integral
import MeteredWasm.Proofs.SoftFloat.Checked.SquareRoot

/-!
# Nothing is lost in machine words

Every operation on encodings, done in words with every step checked, has a result, and it is the one
that exact arithmetic has. So no shift is too wide, no sum or difference wraps around, no bit that is
set is shifted out, and no scale overflows, whatever the operands are.
-/

namespace MeteredWasm.SoftFloat.Checked

-- Powers of numbers are the core library's, as in the formats themselves.
attribute [local instance (high)] instPowNat

/-- All steps of the operations on the encodings of a format are exact in machine words. -/
structure IsExact (fmt : Format) : Prop where
  add : ∀ a < 2 ^ fmt.width, ∀ b < 2 ^ fmt.width, add fmt a b = some (SoftFloat.add fmt a b)
  sub : ∀ a < 2 ^ fmt.width, ∀ b < 2 ^ fmt.width, sub fmt a b = some (SoftFloat.sub fmt a b)
  mul : ∀ a < 2 ^ fmt.width, ∀ b < 2 ^ fmt.width, mul fmt a b = some (SoftFloat.mul fmt a b)
  div : ∀ a < 2 ^ fmt.width, ∀ b < 2 ^ fmt.width, div fmt a b = some (SoftFloat.div fmt a b)
  sqrt : fmt ∈ [binary32, binary64] →
    ∀ a < 2 ^ fmt.width, sqrt fmt a = some (SoftFloat.sqrt fmt a)
  compare : ∀ a < 2 ^ fmt.width, ∀ b < 2 ^ fmt.width,
    compare fmt a b = some (SoftFloat.compare fmt a b)
  roundToIntegral : ∀ a < 2 ^ fmt.width, ∀ d,
    roundToIntegral fmt a d = some (SoftFloat.roundToIntegral fmt a d)
  convert : ∀ target ∈ [binary32, binary64, binary128], ∀ a < 2 ^ fmt.width,
    convert fmt target a = some (SoftFloat.convert fmt target a)
  ofSignedNat : ∀ negative, ∀ magnitude < 2 ^ (128 : Nat),
    ofSignedNat fmt negative magnitude = some (SoftFloat.ofSignedNat fmt negative magnitude)
  truncateSigned : ∀ a < 2 ^ fmt.width, ∀ width ∈ [32, 64, 128],
    truncateSigned fmt a width = some (SoftFloat.truncateSigned fmt a width)
  truncateUnsigned : ∀ a < 2 ^ fmt.width, ∀ width ∈ [32, 64, 128],
    truncateUnsigned fmt a width = some (SoftFloat.truncateUnsigned fmt a width)

theorem bounds_of_mem_widths {width : Nat} (h : width ∈ [32, 64, 128]) :
    0 < width ∧ width ≤ 128 := by
  revert h
  revert width
  decide

theorem fracBits_le_of_double {fmt : Format} (h : fmt ∈ [binary32, binary64]) :
    fmt.fracBits ≤ 60 := by
  revert h
  revert fmt
  decide

theorem isExact {fmt : Format} (hfmt : fmt ∈ [binary32, binary64, binary128]) : IsExact fmt where
  add a _ b _ := add_eq hfmt a b
  sub a _ b _ := sub_eq hfmt a b
  mul a _ b _ := mul_eq hfmt a b
  div a _ b _ := div_eq hfmt a b
  sqrt hdouble a _ := sqrt_eq hfmt (fracBits_le_of_double hdouble) a
  compare _ ha _ hb := compare_eq hfmt ha hb
  roundToIntegral _ ha d := roundToIntegral_eq hfmt ha d
  convert _ htarget a _ := convert_eq hfmt htarget a
  ofSignedNat negative _ h := ofSignedNat_eq hfmt negative h
  truncateSigned := by
    intro a _ width hwidth
    obtain ⟨hpos, hle⟩ := bounds_of_mem_widths hwidth
    exact truncateSigned_eq hfmt a hpos hle
  truncateUnsigned a _ _ hwidth := truncateUnsigned_eq hfmt a (bounds_of_mem_widths hwidth).2

/-- In all three formats the operations are exact in machine words. The product of two words alone
drops bits, on purpose, and its high and low word are the product. -/
theorem operations_exact :
    (∀ fmt ∈ [binary32, binary64, binary128], IsExact fmt) ∧
      ∀ a < 2 ^ (128 : Nat), ∀ b < 2 ^ (128 : Nat), ∃ high low,
        mulWide a b = some (high, low) ∧ SoftFloat.mulWide a b = (high, low) ∧
          high * 2 ^ (128 : Nat) + low = a * b ∧ low < 2 ^ (128 : Nat) := by
  refine ⟨fun fmt hfmt => isExact hfmt, ?_⟩
  intro a ha b hb
  obtain ⟨hproduct, hlow⟩ := SoftFloat.mulWide_eq a b
  exact ⟨_, _, mulWide_eq ha hb, rfl, hproduct, hlow⟩

/-- The square of the greatest finite number, its quotient by the least number, and the square of the
greatest word. -/
theorem operations_exact_extremes :
    mul binary128 (binary128.infinityMagnitude - 1) (binary128.infinityMagnitude - 1) =
        some binary128.infinityMagnitude ∧
      div binary128 (binary128.infinityMagnitude - 1) 1 = some binary128.infinityMagnitude ∧
      mulWide (2 ^ (128 : Nat) - 1) (2 ^ (128 : Nat) - 1) = some (2 ^ (128 : Nat) - 2, 1) := by
  obtain ⟨hformats, hwide⟩ := operations_exact
  have hexact : IsExact binary128 := hformats binary128 (by decide)
  have hgreatest : binary128.infinityMagnitude - 1 < 2 ^ binary128.width := by decide
  have hmul : SoftFloat.mul binary128 (binary128.infinityMagnitude - 1)
      (binary128.infinityMagnitude - 1) = binary128.infinityMagnitude := by decide +kernel
  have hdiv : SoftFloat.div binary128 (binary128.infinityMagnitude - 1) 1 =
      binary128.infinityMagnitude := by decide +kernel
  have hsquare : SoftFloat.mulWide (2 ^ (128 : Nat) - 1) (2 ^ (128 : Nat) - 1) =
      (2 ^ (128 : Nat) - 2, 1) := by decide +kernel
  refine ⟨?_, ?_, ?_⟩
  · rw [hexact.mul _ hgreatest _ hgreatest, hmul]
  · rw [hexact.div _ hgreatest 1 (by decide), hdiv]
  · obtain ⟨high, low, hmachine, hresult, -⟩ :=
      hwide (2 ^ (128 : Nat) - 1) (by decide) (2 ^ (128 : Nat) - 1) (by decide)
    rw [hmachine, ← hresult, hsquare]

end MeteredWasm.SoftFloat.Checked
