import Mathlib.Data.EReal.Basic
import Mathlib.Data.Int.ConditionallyCompleteOrder
import MeteredWasm.Intrinsic.WideCall
import MeteredWasm.Proofs.SoftFloat.Rounding
import MeteredWasm.Proofs.SoftFloat.Words
import MeteredWasm.Proofs.Wasm.Entries

/-!
# Comparison is the order of numbers

Encodings are compared as signed magnitudes, without decoding them. A signed magnitude is a position
among all numbers from the least to the greatest, so the order is that of the numbers, between the
infinities, and both zeros have one position.
-/

namespace MeteredWasm.SoftFloat

open Wasm (Value)

-- Powers of numbers are the core library's, as in the formats themselves.
attribute [local instance (high)] instPowNat

namespace Format

variable {fmt : Format} {a b : Nat}

/-! ## §1 Positions of both signs -/

/-- The number at a signed position. -/
noncomputable def signedNumber (fmt : Format) : ℤ → ℝ
  | .ofNat m => fmt.number m
  | .negSucc m => -fmt.number (m + 1)

theorem signedNumber_strictMono (fmt : Format) : StrictMono fmt.signedNumber := by
  apply strictMono_int_of_lt_succ
  intro k
  cases k with
  | ofNat m => exact number_strictMono fmt (Nat.lt_succ_self m)
  | negSucc m =>
    cases m with
    | zero =>
      -- from the negative positions to the others
      show -fmt.number 1 < fmt.number 0
      have hpos := number_strictMono fmt Nat.zero_lt_one
      rw [number_zero] at hpos ⊢
      exact neg_neg_of_pos hpos
    | succ m =>
      show -fmt.number (m + 1 + 1) < -fmt.number (m + 1)
      exact neg_lt_neg (number_strictMono fmt (Nat.lt_succ_self (m + 1)))

/-- What encodings are ordered by is the position of their numbers. -/
theorem value_eq_signedNumber (fmt : Format) (a : Nat) :
    fmt.value a = fmt.signedNumber (orderKey fmt a) := by
  rw [value, orderKey]
  cases fmt.isNegative a with
  | false =>
    rw [sign, if_neg Bool.false_ne_true, if_neg Bool.false_ne_true, one_mul]
    rfl
  | true =>
    rw [sign, if_pos rfl, if_pos rfl, neg_one_mul]
    cases fmt.magnitude a with
    | zero =>
      show -fmt.number 0 = fmt.number 0
      rw [number_zero, neg_zero]
    | succ m => rfl

/-! ## §2 The order with infinities -/

/-- The number of an encoding, or its infinity. -/
noncomputable def extended (fmt : Format) (a : Nat) : EReal :=
  if fmt.exponent a = fmt.expMax then if fmt.isNegative a then ⊥ else ⊤
  else (fmt.value a : EReal)

/-- One of both is not a number, so that they have no order. -/
def Unordered (fmt : Format) (a b : Nat) : Prop :=
  fmt.isNaN a ∨ fmt.isNaN b

/-- What stands at a signed position, with the infinities at the ends. -/
noncomputable def extendedAt (fmt : Format) (k : ℤ) : EReal :=
  if fmt.infinityMagnitude ≤ k then ⊤
  else if k ≤ -fmt.infinityMagnitude then ⊥
  else (fmt.signedNumber k : EReal)

theorem extendedAt_strictMonoOn (fmt : Format) : StrictMonoOn fmt.extendedAt
    (Set.Icc (-fmt.infinityMagnitude : ℤ) fmt.infinityMagnitude) := by
  rintro k ⟨hk, -⟩ l ⟨-, hl⟩ hlt
  -- the lesser position is not the upper end, and the greater one not the lower end
  have hbelow : ¬(fmt.infinityMagnitude : ℤ) ≤ k := by omega
  have habove : ¬l ≤ -(fmt.infinityMagnitude : ℤ) := by omega
  rw [extendedAt, extendedAt, if_neg hbelow, if_neg habove]
  split_ifs
  · exact bot_lt_top
  · exact EReal.bot_lt_coe _
  · exact EReal.coe_lt_top _
  · exact EReal.coe_lt_coe_iff.mpr (signedNumber_strictMono fmt hlt)

theorem orderKey_mem (h : ¬fmt.isNaN a) :
    orderKey fmt a ∈ Set.Icc (-fmt.infinityMagnitude : ℤ) fmt.infinityMagnitude := by
  have hle : fmt.magnitude a ≤ fmt.infinityMagnitude := by
    rcases finite_or_infinite h with hfinite | hinfinite
    · exact (isFinite_iff.mp hfinite).le
    · exact hinfinite.magnitude.le
  rw [Set.mem_Icc, orderKey]
  split_ifs <;> omega

theorem extended_eq_extendedAt (hexp : 0 < fmt.expBits) (h : ¬fmt.isNaN a) :
    fmt.extended a = fmt.extendedAt (orderKey fmt a) := by
  have hpos := infinityMagnitude_pos hexp
  rcases finite_or_infinite h with hfinite | hinfinite
  · have hlt := isFinite_iff.mp hfinite
    -- a number stands at neither end
    have hbelow : ¬(fmt.infinityMagnitude : ℤ) ≤ orderKey fmt a := by
      rw [orderKey]
      split_ifs <;> omega
    have habove : ¬orderKey fmt a ≤ -(fmt.infinityMagnitude : ℤ) := by
      rw [orderKey]
      split_ifs <;> omega
    rw [extended, if_neg hfinite, extendedAt, if_neg hbelow, if_neg habove, value_eq_signedNumber]
  · rw [extended, if_pos hinfinite.1, orderKey, hinfinite.magnitude]
    cases fmt.isNegative a with
    | false =>
      rw [if_neg Bool.false_ne_true, if_neg Bool.false_ne_true, extendedAt, if_pos le_rfl]
    | true => rw [if_pos rfl, if_pos rfl, extendedAt, if_neg (by omega), if_pos le_rfl]

section Ordered

variable (hexp : 0 < fmt.expBits) (h : ¬fmt.Unordered a b)

include hexp h

theorem extended_lt_iff : fmt.extended a < fmt.extended b ↔ orderKey fmt a < orderKey fmt b := by
  obtain ⟨ha, hb⟩ := not_or.mp h
  rw [extended_eq_extendedAt hexp ha, extended_eq_extendedAt hexp hb]
  exact (extendedAt_strictMonoOn fmt).lt_iff_lt (orderKey_mem ha) (orderKey_mem hb)

theorem extended_eq_iff : fmt.extended a = fmt.extended b ↔ orderKey fmt a = orderKey fmt b := by
  obtain ⟨ha, hb⟩ := not_or.mp h
  rw [extended_eq_extendedAt hexp ha, extended_eq_extendedAt hexp hb]
  exact (extendedAt_strictMonoOn fmt).injOn.eq_iff (orderKey_mem ha) (orderKey_mem hb)

end Ordered

theorem unordered_comm : fmt.Unordered a b ↔ fmt.Unordered b a :=
  or_comm

/-! ## §3 Comparison -/

/-- The outcome of a comparison: the order of the numbers, or none if one is no number. -/
structure IsOrdering (fmt : Format) (a b : Nat) (o : Option Ordering) : Prop where
  none_iff : o = none ↔ fmt.Unordered a b
  lt_iff : o = some .lt ↔ ¬fmt.Unordered a b ∧ fmt.extended a < fmt.extended b
  eq_iff : o = some .eq ↔ ¬fmt.Unordered a b ∧ fmt.extended a = fmt.extended b
  gt_iff : o = some .gt ↔ ¬fmt.Unordered a b ∧ fmt.extended b < fmt.extended a

theorem compare_unordered (h : fmt.Unordered a b) : compare fmt a b = none := by
  rw [compare, if_pos]
  rwa [Bool.or_eq_true]

theorem compare_ordered (h : ¬fmt.Unordered a b) :
    compare fmt a b = some (Ord.compare (orderKey fmt a) (orderKey fmt b)) := by
  rw [compare, if_neg]
  rwa [Bool.or_eq_true]

theorem isOrdering_compare (hexp : 0 < fmt.expBits) (a b : Nat) :
    fmt.IsOrdering a b (compare fmt a b) := by
  by_cases h : fmt.Unordered a b
  · rw [compare_unordered h]
    constructor <;> simp [h]
  · rw [compare_ordered h]
    have hlt := extended_lt_iff hexp h
    have heq := extended_eq_iff hexp h
    have hgt := extended_lt_iff hexp (mt unordered_comm.mp h)
    constructor
    · simp [h]
    · rw [Option.some.injEq, Int.compare_eq_lt, ← hlt, and_iff_right h]
    · rw [Option.some.injEq, Int.compare_eq_eq, ← heq, and_iff_right h]
    · rw [Option.some.injEq, Int.compare_eq_gt, ← hgt, and_iff_right h]

theorem eq_true_iff (hexp : 0 < fmt.expBits) (a b : Nat) :
    eq fmt a b = true ↔ ¬fmt.Unordered a b ∧ fmt.extended a = fmt.extended b := by
  rw [eq, beq_iff_eq, (isOrdering_compare hexp a b).eq_iff]

theorem lt_true_iff (hexp : 0 < fmt.expBits) (a b : Nat) :
    lt fmt a b = true ↔ ¬fmt.Unordered a b ∧ fmt.extended a < fmt.extended b := by
  rw [lt, beq_iff_eq, (isOrdering_compare hexp a b).lt_iff]

theorem le_true_iff (hexp : 0 < fmt.expBits) (a b : Nat) :
    le fmt a b = true ↔ ¬fmt.Unordered a b ∧ fmt.extended a ≤ fmt.extended b := by
  have hordering := isOrdering_compare hexp a b
  rw [le, Bool.or_eq_true, beq_iff_eq, beq_iff_eq, hordering.lt_iff, hordering.eq_iff,
    ← and_or_left, le_iff_lt_or_eq]

/-! ## §4 Extrema -/

/-- Not above, and with the negative zero below the positive one. -/
structure Precedes (fmt : Format) (a b : Nat) : Prop where
  le : fmt.extended a ≤ fmt.extended b
  zero : fmt.IsZero a → fmt.IsZero b → fmt.isNegative b = true → fmt.isNegative a = true

theorem orderKey_le_of_precedes (hexp : 0 < fmt.expBits) (h : ¬fmt.Unordered a b)
    (hle : fmt.Precedes a b) : orderKey fmt a ≤ orderKey fmt b := by
  have hnot := not_lt.mpr hle.le
  rw [extended_lt_iff hexp (mt unordered_comm.mp h)] at hnot
  exact not_lt.mp hnot

/-- Encodings that precede each other are the same. -/
theorem Precedes.antisymm (hexp : 0 < fmt.expBits) (h : ¬fmt.Unordered a b)
    (ha : a < 2 ^ fmt.width) (hb : b < 2 ^ fmt.width) (hle : fmt.Precedes a b)
    (hge : fmt.Precedes b a) : a = b := by
  have hkey : orderKey fmt a = orderKey fmt b :=
    (orderKey_le_of_precedes hexp h hle).antisymm
      (orderKey_le_of_precedes hexp (mt unordered_comm.mp h) hge)
  have hmagnitude : fmt.magnitude a = fmt.magnitude b := by
    rw [orderKey, orderKey] at hkey
    split_ifs at hkey <;> omega
  have hnegative : fmt.isNegative a = fmt.isNegative b := by
    by_cases hzero : fmt.magnitude a = 0
    · have hzero' : fmt.IsZero b := hmagnitude.symm.trans hzero
      exact Bool.eq_iff_iff.mpr ⟨hge.zero hzero' hzero, hle.zero hzero hzero'⟩
    · -- other keys than that of the zeros tell the sign
      rw [orderKey, orderKey, hmagnitude] at hkey
      rw [Bool.eq_iff_iff]
      split_ifs at hkey <;> simp [*] <;> omega
  rw [← signed_self ha, ← signed_self hb, hmagnitude, hnegative]

theorem precedes_of_sign (hexp : 0 < fmt.expBits) (h : ¬fmt.Unordered a b)
    (ha : fmt.isNegative a = true) (hb : fmt.isNegative b = false) : fmt.Precedes a b := by
  refine ⟨?_, fun _ _ _ => ha⟩
  rw [← not_lt, extended_lt_iff hexp (mt unordered_comm.mp h), orderKey, orderKey, if_pos ha, hb,
    if_neg Bool.false_ne_true]
  omega

theorem precedes_of_le (hsign : fmt.isNegative a = fmt.isNegative b)
    (hle : fmt.extended a ≤ fmt.extended b) : fmt.Precedes a b :=
  ⟨hle, fun _ _ hnegative => hsign.trans hnegative⟩

/-- Of two operands one precedes the other. It is the lesser one, and the other is the greater. -/
theorem extrema (hexp : 0 < fmt.expBits) (h : ¬fmt.Unordered a b) :
    (min fmt a b = a ∧ max fmt a b = b ∧ fmt.Precedes a b) ∨
      (min fmt a b = b ∧ max fmt a b = a ∧ fmt.Precedes b a) := by
  obtain ⟨ha, hb⟩ := not_or.mp h
  have hless := (lt_true_iff hexp a b).trans (and_iff_right h)
  -- the numbers are compared only where the signs are the same
  have hsame (hsign : fmt.isNegative a = fmt.isNegative b) :
      ((if lt fmt a b then a else b) = a ∧ (if lt fmt a b then b else a) = b ∧
        fmt.Precedes a b) ∨
      ((if lt fmt a b then a else b) = b ∧ (if lt fmt a b then b else a) = a ∧
        fmt.Precedes b a) := by
    by_cases hlt : lt fmt a b = true
    · rw [if_pos hlt, if_pos hlt]
      exact .inl ⟨rfl, rfl, precedes_of_le hsign (hless.mp hlt).le⟩
    · rw [if_neg hlt, if_neg hlt]
      exact .inr ⟨rfl, rfl, precedes_of_le hsign.symm (not_lt.mp (mt hless.mpr hlt))⟩
  rw [min, max, if_neg ha, if_neg hb, if_neg ha, if_neg hb]
  cases hsign : fmt.isNegative a with
  | false =>
    cases hsign' : fmt.isNegative b with
    | false => exact hsame (hsign.trans hsign'.symm)
    | true => exact .inr ⟨rfl, rfl, precedes_of_sign hexp (mt unordered_comm.mp h) hsign' hsign⟩
  | true =>
    cases hsign' : fmt.isNegative b with
    | false => exact .inl ⟨rfl, rfl, precedes_of_sign hexp h hsign hsign'⟩
    | true => exact hsame (hsign.trans hsign'.symm)

/-- `r` is the lesser of two operands, and of two zeros a negative one. -/
structure IsMinimum (fmt : Format) (a b r : Nat) : Prop where
  operand : r = a ∨ r = b
  le_left : fmt.extended r ≤ fmt.extended a
  le_right : fmt.extended r ≤ fmt.extended b
  zero : fmt.IsZero a → fmt.IsZero b → fmt.isNegative r = (fmt.isNegative a || fmt.isNegative b)

/-- `r` is the greater of two operands, and of two zeros a positive one. -/
structure IsMaximum (fmt : Format) (a b r : Nat) : Prop where
  operand : r = a ∨ r = b
  left_le : fmt.extended a ≤ fmt.extended r
  right_le : fmt.extended b ≤ fmt.extended r
  zero : fmt.IsZero a → fmt.IsZero b → fmt.isNegative r = (fmt.isNegative a && fmt.isNegative b)

/-- Of two zeros, the one that precedes is negative if either is, and the other if both are. -/
theorem Precedes.zeros (h : fmt.Precedes a b) (ha : fmt.IsZero a) (hb : fmt.IsZero b) :
    fmt.isNegative a = (fmt.isNegative a || fmt.isNegative b) ∧
      fmt.isNegative b = (fmt.isNegative a && fmt.isNegative b) := by
  have hzero := h.zero ha hb
  cases hsign : fmt.isNegative a <;> cases hsign' : fmt.isNegative b <;> simp_all

theorem isMinimum_min (hexp : 0 < fmt.expBits) (h : ¬fmt.Unordered a b) :
    fmt.IsMinimum a b (min fmt a b) := by
  rcases extrema hexp h with ⟨hmin, -, hle⟩ | ⟨hmin, -, hle⟩
  · rw [hmin]
    exact ⟨.inl rfl, le_rfl, hle.le, fun ha hb => (hle.zeros ha hb).1⟩
  · rw [hmin]
    exact ⟨.inr rfl, hle.le, le_rfl, fun ha hb => by rw [Bool.or_comm]; exact (hle.zeros hb ha).1⟩

theorem isMaximum_max (hexp : 0 < fmt.expBits) (h : ¬fmt.Unordered a b) :
    fmt.IsMaximum a b (max fmt a b) := by
  rcases extrema hexp h with ⟨-, hmax, hle⟩ | ⟨-, hmax, hle⟩
  · rw [hmax]
    exact ⟨.inr rfl, hle.le, le_rfl, fun ha hb => (hle.zeros ha hb).2⟩
  · rw [hmax]
    exact ⟨.inl rfl, le_rfl, hle.le, fun ha hb => by rw [Bool.and_comm]; exact (hle.zeros hb ha).2⟩

theorem extrema_comm (hexp : 0 < fmt.expBits) (h : ¬fmt.Unordered a b) (ha : a < 2 ^ fmt.width)
    (hb : b < 2 ^ fmt.width) : min fmt a b = min fmt b a ∧ max fmt a b = max fmt b a := by
  have h' := mt unordered_comm.mp h
  rcases extrema hexp h with ⟨hmin, hmax, hle⟩ | ⟨hmin, hmax, hle⟩ <;>
    rcases extrema hexp h' with ⟨hmin', hmax', hle'⟩ | ⟨hmin', hmax', hle'⟩ <;>
    rw [hmin, hmin', hmax, hmax']
  · have hsame := hle.antisymm hexp h ha hb hle'
    exact ⟨hsame, hsame.symm⟩
  · exact ⟨rfl, rfl⟩
  · exact ⟨rfl, rfl⟩
  · have hsame := hle.antisymm hexp h' hb ha hle'
    exact ⟨hsame, hsame.symm⟩

end Format

open Format

/-! ## §5 Instructions -/

namespace Relation

/-- The relation holds between what two encodings stand for. Only `ne` holds where one is no
number. -/
def Holds (op : Relation) (fmt : Format) (a b : Nat) : Prop :=
  match op with
  | .eq => ¬fmt.Unordered a b ∧ fmt.extended a = fmt.extended b
  | .ne => fmt.Unordered a b ∨ fmt.extended a ≠ fmt.extended b
  | .lt => ¬fmt.Unordered a b ∧ fmt.extended a < fmt.extended b
  | .gt => ¬fmt.Unordered a b ∧ fmt.extended b < fmt.extended a
  | .le => ¬fmt.Unordered a b ∧ fmt.extended a ≤ fmt.extended b
  | .ge => ¬fmt.Unordered a b ∧ fmt.extended b ≤ fmt.extended a

variable {fmt : Format} {a b : Nat}

theorem eval_iff (op : Relation) (hexp : 0 < fmt.expBits) :
    op.eval fmt a b = true ↔ op.Holds fmt a b := by
  cases op with
  | eq => exact eq_true_iff hexp a b
  | ne =>
    rw [eval, Bool.not_eq_true', ← Bool.not_eq_true, eq_true_iff hexp, not_and_or, not_not]
    rfl
  | lt => exact lt_true_iff hexp a b
  | gt => rw [eval, lt_true_iff hexp, unordered_comm, Holds]
  | le => exact le_true_iff hexp a b
  | ge => rw [eval, le_true_iff hexp, unordered_comm, Holds]

/-- The instruction leaves one where its relation holds, and zero where not. -/
theorem leaves_ofBool (op : Relation) {w : FloatWidth} {v v' : Value} (ha : w.bits? v = some a)
    (hb : w.bits? v' = some b) :
    (op.Holds w.format a b → (Operator.relation w op).eval [v, v'] = .ok (.i32 1)) ∧
      (¬op.Holds w.format a b → (Operator.relation w op).eval [v, v'] = .ok (.i32 0)) := by
  have hexp : 0 < w.format.expBits := by cases w <;> decide
  have heval : (Operator.relation w op).eval [v, v'] = .ok (.ofBool (op.eval w.format a b)) := by
    rw [Operator.eval, ha, hb]
    rfl
  rw [← op.eval_iff hexp, heval]
  cases op.eval w.format a b with
  | false => exact ⟨fun h => absurd h Bool.false_ne_true, fun _ => rfl⟩
  | true => exact ⟨fun _ => rfl, fun h => absurd rfl h⟩

/-! ## §6 Calls -/

/-- The call for a relation of quadruple floats. -/
def call : Relation → WideCall
  | .eq => .quadEqual
  | .ne => .quadNotEqual
  | .lt => .quadLess
  | .gt => .quadGreater
  | .le => .quadLessEqual
  | .ge => .quadGreaterEqual

/-- How the answer of a call tells whether its relation holds. -/
def Tells : Relation → ℤ → Prop
  | .eq, answer => answer = 0
  | .ne, answer => answer ≠ 0
  | .lt, answer => answer < 0
  | .gt, answer => 0 < answer
  | .le, answer => answer ≤ 0
  | .ge, answer => 0 ≤ answer

/-- The answer of a call where there is no order. -/
def unordered : Relation → ℤ
  | .eq | .ne | .le => 1
  | .lt | .gt => 0
  | .ge => -1

theorem call_rule (op : Relation) :
    op.call.rule = .relation fun a b => Wide.quadCompare a b op.unordered := by
  cases op <;> rfl

/-- Every order has its answer, and the answer where there is none is on the right side of zero. -/
theorem tells_quadCompare (op : Relation) (a b : Wide.Word) :
    op.Tells (Wide.quadCompare a b op.unordered) ↔ op.Holds binary128 a.toNat b.toNat := by
  have hordering := @isOrdering_compare binary128 (by decide) a.toNat b.toNat
  by_cases h : binary128.Unordered a.toNat b.toNat
  · -- of all relations only `ne` holds
    rw [Wide.quadCompare, hordering.none_iff.mpr h]
    cases op <;> simp [Tells, Holds, unordered, h]
  · rcases lt_trichotomy (binary128.extended a.toNat) (binary128.extended b.toNat) with
      hlt | heq | hgt
    · rw [Wide.quadCompare, hordering.lt_iff.mpr ⟨h, hlt⟩]
      cases op <;> simp [Tells, Holds, h, hlt, hlt.ne, hlt.le]
    · rw [Wide.quadCompare, hordering.eq_iff.mpr ⟨h, heq⟩]
      cases op <;> simp [Tells, Holds, h, heq]
    · rw [Wide.quadCompare, hordering.gt_iff.mpr ⟨h, hgt⟩]
      cases op <;> simp [Tells, Holds, h, hgt, hgt.ne', hgt.le]

theorem quadCompare_range (a b : Wide.Word) (op : Relation) :
    -1 ≤ Wide.quadCompare a b op.unordered ∧ Wide.quadCompare a b op.unordered ≤ 1 := by
  rw [Wide.quadCompare]
  split
  · cases op <;> decide
  · decide
  · decide
  · decide

end Relation

/-- A call of four halves leaves a word, which as a signed integer has a property. -/
def Answers (op : WideCall) (lowA highA lowB highB : UInt64) (P : ℤ → Prop) : Prop :=
  ∃ bits : UInt32,
    (∀ ω, @WideCall.run ω op [.i64 lowA, .i64 highA, .i64 lowB, .i64 highB] =
      pure (some (.i32 bits))) ∧
    P bits.toInt32.toInt

theorem answers_of_rule {op : WideCall} {f : Wide.Word → Wide.Word → Int}
    (hrule : op.rule = .relation f) {lowA highA lowB highB : UInt64} {P : ℤ → Prop}
    (hrange : -1 ≤ f (Wide.join lowA highA) (Wide.join lowB highB) ∧
      f (Wide.join lowA highA) (Wide.join lowB highB) ≤ 1)
    (hP : P (f (Wide.join lowA highA) (Wide.join lowB highB))) :
    Answers op lowA highA lowB highB P := by
  refine ⟨UInt32.ofInt (f (Wide.join lowA highA) (Wide.join lowB highB)), fun ω => ?_, ?_⟩
  · rw [WideCall.run, hrule]
    rfl
  · rwa [Wasm.Layout.toInt_toInt32_ofInt (by omega)]

theorem Relation.call_answers (op : Relation) (lowA highA lowB highB : UInt64) :
    Answers op.call lowA highA lowB highB fun answer => op.Tells answer ↔
      op.Holds binary128 (Wide.join lowA highA).toNat (Wide.join lowB highB).toNat :=
  answers_of_rule op.call_rule (quadCompare_range _ _ op) (op.tells_quadCompare _ _)

theorem quadUnordered_answers (lowA highA lowB highB : UInt64) :
    Answers .quadUnordered lowA highA lowB highB fun answer => answer = 1 ↔
      binary128.Unordered (Wide.join lowA highA).toNat (Wide.join lowB highB).toNat := by
  have hunordered (a b : Wide.Word) :
      Wide.quadUnordered a b = true ↔ binary128.Unordered a.toNat b.toNat := by
    rw [Wide.quadUnordered, Bool.or_eq_true, Unordered]
  refine answers_of_rule (f := fun a b => if Wide.quadUnordered a b then 1 else 0) rfl ?_ ?_
  · split_ifs <;> decide
  · rw [← hunordered]
    split_ifs with h <;> simp [h]

/-- Comparison is the order of the numbers, with infinities at the ends and one zero: the operation
itself, the extrema, all instructions and all calls. Extrema are operands, and do not depend on the
order of the operands. -/
theorem comparison_exact :
    (∀ fmt ∈ [binary32, binary64, binary128], ∀ a b,
      fmt.IsOrdering a b (compare fmt a b) ∧
      (¬fmt.Unordered a b →
        fmt.IsMinimum a b (min fmt a b) ∧ fmt.IsMaximum a b (max fmt a b) ∧
        (a < 2 ^ fmt.width → b < 2 ^ fmt.width →
          min fmt a b = min fmt b a ∧ max fmt a b = max fmt b a))) ∧
    (∀ (op : Relation) (w : FloatWidth) (v v' : Value) (a b : Nat),
      w.bits? v = some a → w.bits? v' = some b →
        (op.Holds w.format a b → (Operator.relation w op).eval [v, v'] = .ok (.i32 1)) ∧
        (¬op.Holds w.format a b → (Operator.relation w op).eval [v, v'] = .ok (.i32 0))) ∧
    ∀ lowA highA lowB highB : UInt64,
      (∀ op : Relation, Answers op.call lowA highA lowB highB fun answer => op.Tells answer ↔
        op.Holds binary128 (Wide.join lowA highA).toNat (Wide.join lowB highB).toNat) ∧
      Answers .quadUnordered lowA highA lowB highB fun answer => answer = 1 ↔
        binary128.Unordered (Wide.join lowA highA).toNat (Wide.join lowB highB).toNat := by
  refine ⟨?formats, ?instructions, ?calls⟩
  case formats =>
    intro fmt hfmt a b
    obtain ⟨-, hexp, -⟩ := widths_of_mem hfmt
    exact ⟨isOrdering_compare hexp a b, fun h =>
      ⟨isMinimum_min hexp h, isMaximum_max hexp h, extrema_comm hexp h⟩⟩
  case instructions => exact fun op _ _ _ _ _ => op.leaves_ofBool
  case calls =>
    intro lowA highA lowB highB
    exact ⟨fun op => op.call_answers lowA highA lowB highB,
      quadUnordered_answers lowA highA lowB highB⟩

/-- The lesser of both zeros is the negative one, whichever comes first, and a NaN differs from
everything. -/
theorem comparison_exact_zeros :
    binary32.IsMinimum 0 0x80000000 0x80000000 ∧
      min binary32 0x80000000 0 = 0x80000000 ∧
      (Operator.relation .single .ne).eval [.f32 0x7FC00000, .f32 0x7FC00000] = .ok (.i32 1) := by
  have hmin : min binary32 0 0x80000000 = 0x80000000 := by decide +kernel
  have hordered : ¬binary32.Unordered 0 0x80000000 := by
    rw [Unordered]
    decide +kernel
  have hnan : Relation.ne.Holds binary32 0x7FC00000 0x7FC00000 := by
    refine .inl (.inl ?_)
    decide +kernel
  obtain ⟨hformats, hinstructions, -⟩ := comparison_exact
  obtain ⟨-, hextrema⟩ := hformats binary32 (by decide) 0 0x80000000
  obtain ⟨hminimum, -, hcomm⟩ := hextrema hordered
  obtain ⟨hsame, -⟩ := hcomm (by decide) (by decide)
  rw [hmin] at hminimum hsame
  exact ⟨hminimum, hsame.symm, (hinstructions .ne .single (.f32 0x7FC00000) (.f32 0x7FC00000)
    0x7FC00000 0x7FC00000 rfl rfl).1 hnan⟩

end MeteredWasm.SoftFloat
