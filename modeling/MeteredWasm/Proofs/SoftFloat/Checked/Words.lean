import Mathlib.Algebra.Ring.Nat
import MeteredWasm.Proofs.SoftFloat.Rounding

/-!
# Machine words

Encodings and significands are words of 128 bits, scales are signed integers of 32 bits and shifts
are by unsigned ones. An operation is checked here: it has a result only where the machine's result
is the exact one, so nothing is carried out of a word, nothing is borrowed, and no bit that is set is
shifted out on the left. Masks and complements compute what quotients and remainders do.
-/

namespace MeteredWasm.SoftFloat.Checked

-- Powers of numbers are the core library's, as in the formats themselves.
attribute [local instance (high)] instPowNat

open Format

/-! ## §1 Checked operations -/

/-- The sum of two words, where it does not carry. -/
def addWord (a b : Nat) : Option Nat :=
  if a + b < 2 ^ (128 : Nat) then some (a + b) else none

/-- The difference of two words, where it does not borrow. -/
def subWord (a b : Nat) : Option Nat :=
  if b ≤ a then some (a - b) else none

/-- The product of two words, where it is a word. -/
def mulWord (a b : Nat) : Option Nat :=
  if a * b < 2 ^ (128 : Nat) then some (a * b) else none

/-- A word moved to the left, by less than its width and without losing a bit. -/
def shiftLeft (a count : Nat) : Option Nat :=
  if count < 128 ∧ a <<< count < 2 ^ (128 : Nat) then some (a <<< count) else none

/-- A word moved to the right, by less than its width. -/
def shiftRight (a count : Nat) : Option Nat :=
  if count < 128 then some (a >>> count) else none

/-- A word with its last bits set. -/
def mask (count : Nat) : Option Nat := do
  subWord (← shiftLeft 1 count) 1

/-- All bits of a word that are not set. -/
def complement (a : Nat) : Nat :=
  (2 ^ (128 : Nat) - 1) ^^^ a

/-- An integer as a scale. -/
def scale? (i : Int) : Option Int :=
  if -2 ^ (31 : Nat) ≤ i ∧ i < 2 ^ (31 : Nat) then some i else none

/-- An integer as an unsigned number of 32 bits, such as the count of a shift. -/
def count? (i : Int) : Option Nat :=
  if 0 ≤ i ∧ i < 2 ^ (32 : Nat) then some i.toNat else none

/-- What has a result goes on with it. Proofs step through checked operations by this lemma. -/
theorem some_bind {α β : Type} (a : α) (f : α → Option β) : (some a >>= f) = f a :=
  pure_bind a f

section Operations

variable {a b count : Nat}

theorem addWord_eq (h : a + b < 2 ^ (128 : Nat)) : addWord a b = some (a + b) :=
  if_pos h

theorem subWord_eq (h : b ≤ a) : subWord a b = some (a - b) :=
  if_pos h

theorem mulWord_eq (h : a * b < 2 ^ (128 : Nat)) : mulWord a b = some (a * b) :=
  if_pos h

theorem shiftLeft_eq (hcount : count < 128) (h : a * 2 ^ count < 2 ^ (128 : Nat)) :
    shiftLeft a count = some (a * 2 ^ count) := by
  rw [shiftLeft, Nat.shiftLeft_eq, if_pos ⟨hcount, h⟩]

theorem shiftRight_eq (hcount : count < 128) : shiftRight a count = some (a / 2 ^ count) := by
  rw [shiftRight, if_pos hcount, Nat.shiftRight_eq_div_pow]

/-- A power of two that is a word. -/
theorem shiftLeft_one (hcount : count < 128) : shiftLeft 1 count = some (2 ^ count) := by
  rw [shiftLeft_eq hcount, Nat.one_mul]
  rw [Nat.one_mul]
  exact Nat.pow_lt_pow_right Nat.one_lt_two hcount

theorem mask_eq (hcount : count < 128) : mask count = some (2 ^ count - 1) := by
  simp only [mask, shiftLeft_one hcount, some_bind, subWord_eq Nat.one_le_two_pow]

theorem scale?_eq {i : Int} (hlow : -2 ^ (31 : Nat) ≤ i) (hhigh : i < 2 ^ (31 : Nat)) :
    scale? i = some i :=
  if_pos ⟨hlow, hhigh⟩

theorem count?_eq {i : Int} (hlow : 0 ≤ i) (hhigh : i < 2 ^ (32 : Nat)) :
    count? i = some i.toNat :=
  if_pos ⟨hlow, hhigh⟩

theorem count?_sub (h : b ≤ a) (ha : a < 2 ^ (32 : Nat)) : count? ((a : Int) - b) = some (a - b) := by
  rw [count?_eq (by omega) (by omega), Int.toNat_sub]

/-- Bits that do not overlap are added. -/
theorem mul_or {i : Nat} (h : b < 2 ^ i) : a * 2 ^ i ||| b = a * 2 ^ i + b := by
  have hor := Nat.two_pow_add_eq_or_of_lt h a
  rw [Nat.mul_comm] at hor
  exact hor.symm

theorem or_two_pow {i : Nat} (h : a < 2 ^ i) : a ||| 2 ^ i = 2 ^ i + a := by
  have hor := mul_or (a := 1) h
  rwa [Nat.one_mul, Nat.or_comm] at hor

/-- Without the bits of a mask, a number is what it is without its remainder. -/
theorem and_complement {i : Nat} (ha : a < 2 ^ (128 : Nat)) :
    a &&& complement (2 ^ i - 1) = a - a % 2 ^ i := by
  have hsplit : a - a % 2 ^ i = a / 2 ^ i * 2 ^ i := by
    have := Nat.div_add_mod' a (2 ^ i)
    omega
  rw [hsplit]
  apply Nat.eq_of_testBit_eq
  intro j
  have hword : 128 ≤ j → a.testBit j = false := fun hj =>
    Nat.testBit_lt_two_pow (ha.trans_le (Nat.pow_le_pow_right Nat.two_pos hj))
  simp only [complement, Nat.testBit_and, Nat.testBit_xor, Nat.testBit_two_pow_sub_one,
    Nat.testBit_mul_two_pow, Nat.testBit_div_two_pow]
  grind

/-- Without its top bit, a number is its remainder. -/
theorem and_complement_two_pow {i : Nat} (ha : a < 2 ^ (i + 1)) (hi : i < 128) :
    a &&& complement (2 ^ i) = a % 2 ^ i := by
  apply Nat.eq_of_testBit_eq
  intro j
  have hlarge : i < j → a.testBit j = false := fun hj =>
    Nat.testBit_lt_two_pow (ha.trans_le (Nat.pow_le_pow_right Nat.two_pos hj))
  simp only [complement, Nat.testBit_and, Nat.testBit_xor, Nat.testBit_two_pow_sub_one,
    Nat.testBit_two_pow, Nat.testBit_mod_two_pow]
  grind

end Operations

end MeteredWasm.SoftFloat.Checked
