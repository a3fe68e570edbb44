import Mathlib.Data.Int.ModEq
import MeteredWasm.Wide.Arithmetic

/-!
# Wide words as integers

Two halves spell a natural number, or an integer when the high half is read with its sign. Products,
shifts and quotients of words are those of these numbers, modulo the width; of signed quotients only
one is too great for a word.

* `Wide.toNat_join`, `Wide.toInt_join`: the numbers that halves spell;
* `Wide.mul_eq`, `Wide.shl_eq`, `Wide.lshr_eq`, `Wide.ashr_eq`: words as numbers modulo the width;
* `Wide.isDivision`: quotient and remainder with signs.
-/

namespace MeteredWasm.Wide

/-! ## §1 Halves -/

/-- The natural number that two halves spell. -/
def unsigned (low high : UInt64) : Nat :=
  low.toNat + 2 ^ 64 * high.toNat

/-- The integer that two halves spell in two's complement: the sign is that of the high half. -/
def signed (low high : UInt64) : Int :=
  low.toNat + 2 ^ 64 * high.toInt64.toInt

theorem toNat_join (low high : UInt64) : (join low high).toNat = unsigned low high := by
  rw [join, BitVec.toNat_append, ← Nat.shiftLeft_add_eq_or_of_lt low.toBitVec.isLt,
    Nat.shiftLeft_eq, Nat.mul_comm, Nat.add_comm]
  rfl

theorem toInt_join (low high : UInt64) : (join low high).toInt = signed low high := by
  have hlow := low.toNat_lt
  have hhigh := high.toNat_lt
  have hsigned : high.toInt64.toInt =
      if 2 * high.toNat < 2 ^ 64 then (high.toNat : Int) else (high.toNat : Int) - 2 ^ 64 :=
    BitVec.toInt_eq_toNat_cond high.toBitVec
  rw [BitVec.toInt_eq_toNat_cond, toNat_join, signed, hsigned, unsigned]
  push_cast
  split_ifs <;> omega

/-! ## §2 Products and shifts -/

/-- The word of an integer is that integer modulo the width. -/
theorem toNat_ofInt (n : Int) : (BitVec.ofInt 128 n).toNat = (n % 2 ^ 128).toNat := by
  rw [BitVec.toNat_ofInt]
  push_cast
  rfl

theorem mul_eq (a b : Word) : mul a b = BitVec.ofInt 128 (a.toNat * b.toNat : Nat) := by
  apply BitVec.eq_of_toNat_eq
  rw [BitVec.ofInt_natCast, BitVec.toNat_ofNat, mul, BitVec.toNat_mul]

theorem shl_eq (v : Word) (n : Nat) : shl v n = BitVec.ofInt 128 (v.toNat * 2 ^ n : Nat) := by
  apply BitVec.eq_of_toNat_eq
  rw [BitVec.ofInt_natCast, BitVec.toNat_ofNat, shl]
  split_ifs with hn
  · rw [BitVec.toNat_shiftLeft, Nat.shiftLeft_eq]
  · -- the width divides the factor
    obtain ⟨further, rfl⟩ := Nat.exists_eq_add_of_le (Nat.le_of_not_lt hn)
    rw [Nat.pow_add, Nat.mul_left_comm, Nat.mul_mod_right]
    rfl

theorem lshr_eq (v : Word) (n : Nat) : lshr v n = BitVec.ofInt 128 (v.toNat / 2 ^ n : Nat) := by
  apply BitVec.eq_of_toNat_eq
  have hsmall : v.toNat / 2 ^ n < 2 ^ 128 := Nat.lt_of_le_of_lt (Nat.div_le_self _ _) v.isLt
  rw [BitVec.ofInt_natCast, BitVec.toNat_ofNat, Nat.mod_eq_of_lt hsmall, lshr]
  split_ifs with hn
  · rw [BitVec.toNat_ushiftRight, Nat.shiftRight_eq_div_pow]
  · have hwide : 2 ^ 128 ≤ 2 ^ n := Nat.pow_le_pow_right (by decide) (Nat.le_of_not_lt hn)
    rw [Nat.div_eq_of_lt (Nat.lt_of_lt_of_le v.isLt hwide)]
    rfl

/-- Only the sign is left of a word that has been shifted far enough. -/
theorem toInt_div_two_pow (v : Word) {n : Nat} (hn : 127 ≤ n) :
    v.toInt / (2 ^ n : Nat) = if v.toInt < 0 then -1 else 0 := by
  have hupper : v.toInt < 2 ^ 127 := BitVec.toInt_lt
  have hlower : -2 ^ 127 ≤ v.toInt := BitVec.le_toInt v
  have hwide : 2 ^ 127 ≤ 2 ^ n := Nat.pow_le_pow_right (by decide) hn
  split_ifs with hneg
  · exact Int.ediv_eq_neg_one_of_neg_of_le hneg (by omega)
  · exact Int.ediv_eq_zero_of_lt (Int.not_lt.mp hneg) (by omega)

/-- Shifting right divides and rounds down, whatever the sign. -/
theorem ashr_eq (v : Word) (n : Nat) :
    ashr v n = BitVec.ofInt 128 (v.toInt / (2 ^ n : Nat)) := by
  have hsame : v.toInt / (2 ^ min n 127 : Nat) = v.toInt / (2 ^ n : Nat) := by
    rcases Nat.le_total n 127 with hn | hn
    · rw [Nat.min_eq_left hn]
    · rw [Nat.min_eq_right hn, toInt_div_two_pow v (Nat.le_refl 127), toInt_div_two_pow v hn]
  rw [← hsame, ← Int.shiftRight_eq_div_pow, ← BitVec.toInt_sshiftRight, BitVec.ofInt_toInt]
  rfl

/-! ## §3 Quotients -/

theorem dividing_zero (quotient : Word) : dividing 0 quotient = .error .divisionByZero :=
  if_pos rfl

section

variable (a : Word) {b : Word} (hb : b ≠ 0)
include hb

theorem dividing_of_ne_zero (quotient : Word) : dividing b quotient = .ok quotient :=
  if_neg hb

theorem divUnsigned_eq :
    divUnsigned a b = .ok (BitVec.ofInt 128 (a.toNat / b.toNat : Nat)) := by
  rw [divUnsigned, dividing_of_ne_zero hb, BitVec.ofInt_natCast, ← BitVec.toNat_udiv,
    BitVec.ofNat_toNat, BitVec.setWidth_eq]

theorem remUnsigned_eq :
    remUnsigned a b = .ok (BitVec.ofInt 128 (a.toNat % b.toNat : Nat)) := by
  rw [remUnsigned, dividing_of_ne_zero hb, BitVec.ofInt_natCast, ← BitVec.toNat_umod,
    BitVec.ofNat_toNat, BitVec.setWidth_eq]

theorem divSigned_eq : divSigned a b = .ok (BitVec.ofInt 128 (a.sdiv b).toInt) := by
  rw [divSigned, dividing_of_ne_zero hb, BitVec.ofInt_toInt]

theorem remSigned_eq : remSigned a b = .ok (BitVec.ofInt 128 (a.srem b).toInt) := by
  rw [remSigned, dividing_of_ne_zero hb, BitVec.ofInt_toInt]

end

/-- Quotient and remainder of a division toward zero, modulo the width. Only the quotient of the
least integer by minus one is not exact. -/
structure IsDivision (a b q r : Int) : Prop where
  modEq : q * b + r ≡ a [ZMOD 2 ^ 128]
  remainder_lt : r.natAbs < b.natAbs
  remainder_sign : r = 0 ∨ r.sign = a.sign
  exact : ¬(a = -2 ^ 127 ∧ b = -1) → a = q * b + r
  overflow : a = -2 ^ 127 → b = -1 → q = -2 ^ 127 ∧ r = 0

theorem toInt_eq_iff {v : Word} {i : Int} (hi : (BitVec.ofInt 128 i).toInt = i) :
    v.toInt = i ↔ v = BitVec.ofInt 128 i := by
  rw [← BitVec.toInt_inj, hi]

theorem isDivision (u : Word) {v : Word} (hv : v ≠ 0) :
    IsDivision u.toInt v.toInt (u.sdiv v).toInt (u.srem v).toInt := by
  have hleast : u.toInt = -2 ^ 127 ↔ u = BitVec.intMin 128 := toInt_eq_iff (by decide)
  have hminus : v.toInt = -1 ↔ v = -1#128 := toInt_eq_iff (by decide)
  have hexact (h : ¬(u.toInt = -2 ^ 127 ∧ v.toInt = -1)) :
      u.toInt = (u.sdiv v).toInt * v.toInt + u.toInt.tmod v.toInt := by
    rw [hleast, hminus, not_and_or] at h
    rw [BitVec.toInt_sdiv_of_ne_or_ne u v h, Int.tdiv_mul_add_tmod]
  have hoverflow (hu : u.toInt = -2 ^ 127) (hv : v.toInt = -1) :
      (u.sdiv v).toInt = -2 ^ 127 ∧ u.toInt.tmod v.toInt = 0 := by
    obtain rfl := hleast.mp hu
    obtain rfl := hminus.mp hv
    decide
  rw [BitVec.toInt_srem]
  refine ⟨?modEq, ?remainder_lt, ?remainder_sign, hexact, hoverflow⟩
  case modEq =>
    by_cases h : u.toInt = -2 ^ 127 ∧ v.toInt = -1
    · obtain ⟨hq, hr⟩ := hoverflow h.1 h.2
      rw [hq, hr, h.1, h.2]
      decide
    · rw [← hexact h]
  case remainder_lt =>
    rw [Int.natAbs_tmod]
    refine Nat.mod_lt _ (Int.natAbs_pos.mpr fun h => hv ?_)
    rwa [← BitVec.toInt_zero, BitVec.toInt_inj] at h
  case remainder_sign =>
    have hsign := Int.sign_tmod u.toInt v.toInt
    split_ifs at hsign with hdvd
    · exact .inl (Int.sign_eq_zero_iff_zero.mp hsign)
    · exact .inr hsign

end MeteredWasm.Wide
