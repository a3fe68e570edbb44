import Mathlib.Data.List.Forall2
import Mathlib.Tactic.Linarith
import MeteredWasm.Wasm.Leb

/-!
# Reading back LEB128 integers

What is written is read back, whatever follows it. Conversely, a form that is read stands for an
integer of the given width, is read the same in front of any other bytes, and is at least as long as
the form that would be written for that integer. The forms of a natural number that are read are
exactly its digits with marks and padding, and the one that is written is the only shortest one.
-/

namespace MeteredWasm.Wasm.Leb

/-! ## §1 Bytes -/

/-- A number below 256 is the value of its byte. -/
theorem toNat_ofNat_of_lt {n : Nat} (h : n < 256) : (UInt8.ofNat n).toNat = n := by
  simp only [UInt8.toNat_ofNat']
  omega

/-! ## §2 Natural numbers -/

/-- The form of a number is never empty. -/
theorem length_unsigned_pos (n : Nat) : 0 < (unsigned n).length := by
  rw [unsigned]
  split_ifs <;> simp

/-- Seven more bits take at most one more byte. -/
theorem length_unsigned_add_le {d : Nat} (hd : d < 128) (n : Nat) :
    (unsigned (d + 128 * n)).length ≤ (unsigned n).length + 1 := by
  have hpos := length_unsigned_pos n
  rw [unsigned]
  split_ifs with hsmall
  · simp
  · rw [show (d + 128 * n) / 128 = n by omega]
    simp

/-- A smaller number takes no more bytes. -/
theorem length_unsigned_mono {m n : Nat} (h : m ≤ n) :
    (unsigned m).length ≤ (unsigned n).length := by
  -- along the digits of the larger number, base 128
  induction n using unsigned.induct generalizing m with
  | case1 n hsmall =>
    rw [unsigned.eq_1 m, unsigned.eq_1 n, if_pos hsmall, if_pos (by omega)]
    exact le_rfl
  | case2 n hlarge ih =>
    rw [unsigned.eq_1 m, unsigned.eq_1 n, if_neg hlarge]
    split_ifs with hsmall
    · simp
    · simp only [List.length_cons]
      have hlength := ih (show m / 128 ≤ n / 128 by omega)
      omega

/-- The form of a number is much shorter than the number. -/
theorem length_unsigned_le (n : Nat) : (unsigned n).length ≤ n / 128 + 1 := by
  induction n using unsigned.induct with
  | case1 n hsmall =>
    rw [unsigned, if_pos hsmall]
    simp
  | case2 n hlarge ih =>
    rw [unsigned, if_neg hlarge, List.length_cons]
    omega

/-- The width shrinks by seven bits for each byte but the last. -/
theorem two_pow_eq_mul {bits : Nat} (hbits : 7 ≤ bits) : 2 ^ bits = 128 * 2 ^ (bits - 7) := by
  rw [show (128 : Nat) = 2 ^ 7 from rfl, ← Nat.pow_add]
  congr 1
  omega

/-- What is written for a number within the width is read as that number. -/
theorem readUnsigned_unsigned {bits n : Nat} (h : n < 2 ^ bits) (rest : List UInt8) :
    readUnsigned bits (unsigned n ++ rest) = .ok (n, (unsigned n).length, rest) := by
  -- along the digits; each takes seven bits from the width
  induction n using unsigned.induct generalizing bits with
  | case1 n hsmall =>
    rw [unsigned, if_pos hsmall]
    simp [readUnsigned, toNat_ofNat_of_lt (show n < 256 by omega), hsmall, h]
  | case2 n hlarge ih =>
    have hbyte : (UInt8.ofNat (n % 128 + 128)).toNat = n % 128 + 128 :=
      toNat_ofNat_of_lt (by omega)
    -- more than one byte is only written when more than seven bits are needed
    have hbits : 7 < bits := by
      by_contra hle
      have : 2 ^ bits ≤ 2 ^ 7 := Nat.pow_le_pow_right (by decide) (by omega)
      omega
    rw [unsigned, if_neg hlarge, List.cons_append, readUnsigned, hbyte,
      if_neg (by omega), if_neg (by omega), ih (by have := two_pow_eq_mul hbits.le; omega)]
    have hvalue : (n % 128 + 128) % 128 + 128 * (n / 128) = n := by omega
    show Except.ok ((n % 128 + 128) % 128 + 128 * (n / 128), _, _) = _
    rw [hvalue, List.length_cons]

/-- A form that is read is a front of the input and means the same in front of anything else. -/
theorem readUnsigned_front {bits n used : Nat} {bytes rest : List UInt8}
    (h : readUnsigned bits bytes = .ok (n, used, rest)) :
    ∃ front, bytes = front ++ rest ∧ front.length = used ∧
      ∀ tail, readUnsigned bits (front ++ tail) = .ok (n, used, tail) := by
  -- along the bytes that are used; the first without the high bit is the last
  induction bytes generalizing bits n used with
  | nil => simp [readUnsigned] at h
  | cons b bytes ih =>
    rw [readUnsigned] at h
    split_ifs at h with hlast hfits hlong
    · obtain ⟨rfl, rfl, rfl⟩ := by simpa using h
      exact ⟨[b], rfl, rfl, fun tail => by simp [readUnsigned, hlast, hfits]⟩
    · cases hread : readUnsigned (bits - 7) bytes with
      | error e => simp [hread, bind, Except.bind] at h
      | ok result =>
        obtain ⟨m, k, rest'⟩ := result
        obtain ⟨rfl, rfl, rfl⟩ := by simpa [hread, bind, Except.bind, pure, Except.pure] using h
        obtain ⟨front, rfl, rfl, hfront⟩ := ih hread
        refine ⟨b :: front, rfl, rfl, fun tail => ?_⟩
        rw [List.cons_append, readUnsigned, if_neg hlast, if_neg hlong, hfront]
        rfl

/-- A number that is read is within the width, and its shortest form is no longer than what was
read. -/
theorem readUnsigned_bound {bits n used : Nat} {bytes rest : List UInt8}
    (h : readUnsigned bits bytes = .ok (n, used, rest)) :
    n < 2 ^ bits ∧ (unsigned n).length ≤ used := by
  induction bytes generalizing bits n used with
  | nil => simp [readUnsigned] at h
  | cons b bytes ih =>
    rw [readUnsigned] at h
    split_ifs at h with hlast hfits hlong
    · obtain ⟨rfl, rfl, rfl⟩ := by simpa using h
      refine ⟨hfits, ?_⟩
      rw [unsigned, if_pos hlast]
      simp
    · cases hread : readUnsigned (bits - 7) bytes with
      | error e => simp [hread, bind, Except.bind] at h
      | ok result =>
        obtain ⟨m, k, rest'⟩ := result
        obtain ⟨rfl, rfl, rfl⟩ := by simpa [hread, bind, Except.bind, pure, Except.pure] using h
        obtain ⟨hm, hlength⟩ := ih hread
        have hdigit : b.toNat % 128 < 128 := Nat.mod_lt _ (by decide)
        have hsplit : 2 ^ bits = 128 * 2 ^ (bits - 7) := two_pow_eq_mul (by omega)
        -- a padded form has more bytes than digits, never fewer
        have hadd := length_unsigned_add_le hdigit m
        exact ⟨by omega, by omega⟩

/-! ## §3 Integers -/

/-- The form of an integer is never empty. -/
theorem length_signed_pos (i : Int) : 0 < (signed i).length := by
  rw [signed]
  split_ifs <;> simp

/-- Seven more bits take at most one more byte. -/
theorem length_signed_add_le {d : Int} (hd : 0 ≤ d ∧ d < 128) (i : Int) :
    (signed (d + 128 * i)).length ≤ (signed i).length + 1 := by
  have hpos := length_signed_pos i
  rw [signed]
  split_ifs with hsmall
  · simp
  · rw [show (d + 128 * i) / 128 = i by omega]
    simp

/-- The range of integers shrinks by seven bits for each byte but the last. -/
theorem int_two_pow_eq_mul {bits : Nat} (hbits : 7 < bits) :
    (2 : Int) ^ (bits - 1) = 128 * 2 ^ (bits - 7 - 1) := by
  rw [show (128 : Int) = 2 ^ 7 from rfl, ← Int.pow_add]
  congr 1
  omega

/-- What the last byte adds: its seventh bit is the sign. -/
def lastDigit (b : UInt8) : Int :=
  if b.toNat < 64 then b.toNat else b.toNat - 128

theorem lastDigit_bound {b : UInt8} (hb : b.toNat < 128) :
    -64 ≤ lastDigit b ∧ lastDigit b < 64 := by
  unfold lastDigit
  split_ifs <;> omega

theorem readSigned_last {bits : Nat} {b : UInt8} (hb : b.toNat < 128) (rest : List UInt8) :
    readSigned bits (b :: rest) =
      if -(2 ^ (bits - 1)) ≤ lastDigit b ∧ lastDigit b < 2 ^ (bits - 1) then
        .ok (lastDigit b, 1, rest)
      else .error .integerTooLarge := by
  rw [readSigned, if_pos hb]
  rfl

/-- What is written for an integer of the width is read as that integer. -/
theorem readSigned_signed {bits : Nat} {i : Int}
    (h : -(2 ^ (bits - 1)) ≤ i ∧ i < 2 ^ (bits - 1)) (rest : List UInt8) :
    readSigned bits (signed i ++ rest) = .ok (i, (signed i).length, rest) := by
  induction i using signed.induct generalizing bits with
  | case1 i hsmall =>
    have hbyte : (UInt8.ofNat (i % 128).toNat).toNat = (i % 128).toNat :=
      toNat_ofNat_of_lt (by omega)
    have hvalue : lastDigit (UInt8.ofNat (i % 128).toNat) = i := by
      rw [lastDigit, hbyte]
      split_ifs <;> omega
    rw [signed, if_pos hsmall, List.singleton_append, readSigned_last (by omega), hvalue,
      if_pos h, List.length_singleton]
  | case2 i hlarge ih =>
    have hbyte : (UInt8.ofNat ((i % 128).toNat + 128)).toNat = (i % 128).toNat + 128 :=
      toNat_ofNat_of_lt (by omega)
    -- a second byte is only written outside the range of seven bits
    have hbits : 7 < bits := by
      by_contra hle
      have hpow : (2 : Int) ^ (bits - 1) ≤ 2 ^ 6 :=
        pow_le_pow_right₀ (by decide) (by omega)
      omega
    have hsplit := int_two_pow_eq_mul hbits
    rw [signed, if_neg hlarge, List.cons_append, readSigned, hbyte,
      if_neg (by omega), if_neg (by omega), ih (by omega)]
    have hvalue : (((i % 128).toNat + 128) % 128 : Nat) + 128 * (i / 128) = i := by omega
    show Except.ok ((((i % 128).toNat + 128) % 128 : Nat) + 128 * (i / 128), _, _) = _
    rw [hvalue, List.length_cons]

/-- A form that is read is a front of the input and means the same in front of anything else. -/
theorem readSigned_front {bits used : Nat} {i : Int} {bytes rest : List UInt8}
    (h : readSigned bits bytes = .ok (i, used, rest)) :
    ∃ front, bytes = front ++ rest ∧ front.length = used ∧
      ∀ tail, readSigned bits (front ++ tail) = .ok (i, used, tail) := by
  induction bytes generalizing bits i used with
  | nil => simp [readSigned] at h
  | cons b bytes ih =>
    by_cases hlast : b.toNat < 128
    · rw [readSigned_last hlast] at h
      split_ifs at h with hfits
      obtain ⟨rfl, rfl, rfl⟩ := by simpa using h
      exact ⟨[b], rfl, rfl, fun tail => by simp [readSigned_last hlast, hfits]⟩
    · rw [readSigned, if_neg hlast] at h
      split_ifs at h with hlong
      cases hread : readSigned (bits - 7) bytes with
      | error e => simp [hread, bind, Except.bind] at h
      | ok result =>
        obtain ⟨j, k, rest'⟩ := result
        obtain ⟨rfl, rfl, rfl⟩ := by simpa [hread, bind, Except.bind, pure, Except.pure] using h
        obtain ⟨front, rfl, rfl, hfront⟩ := ih hread
        refine ⟨b :: front, rfl, rfl, fun tail => ?_⟩
        rw [List.cons_append, readSigned, if_neg hlast, if_neg hlong, hfront]
        simp [bind, Except.bind, pure, Except.pure]

/-- An integer that is read is of the width, and its shortest form is no longer than what was
read. -/
theorem readSigned_bound {bits used : Nat} {i : Int} {bytes rest : List UInt8}
    (h : readSigned bits bytes = .ok (i, used, rest)) :
    (-(2 ^ (bits - 1)) ≤ i ∧ i < 2 ^ (bits - 1)) ∧ (signed i).length ≤ used := by
  induction bytes generalizing bits i used with
  | nil => simp [readSigned] at h
  | cons b bytes ih =>
    by_cases hlast : b.toNat < 128
    · rw [readSigned_last hlast] at h
      split_ifs at h with hfits
      obtain ⟨rfl, rfl, rfl⟩ := by simpa using h
      have hdigit := lastDigit_bound hlast
      refine ⟨hfits, ?_⟩
      rw [signed, if_pos (by omega)]
      simp
    · rw [readSigned, if_neg hlast] at h
      split_ifs at h with hlong
      cases hread : readSigned (bits - 7) bytes with
      | error e => simp [hread, bind, Except.bind] at h
      | ok result =>
        obtain ⟨j, k, rest'⟩ := result
        obtain ⟨rfl, rfl, rfl⟩ := by simpa [hread, bind, Except.bind, pure, Except.pure] using h
        obtain ⟨hj, hlength⟩ := ih hread
        have hsplit : (2 : Int) ^ (bits - 1) = 128 * 2 ^ (bits - 7 - 1) :=
          int_two_pow_eq_mul (by omega)
        -- the first byte is one digit more, so the shortest form grows by one byte at most
        have hadd := length_signed_add_le (d := (b.toNat : Int) % 128) (by omega) j
        exact ⟨by omega, by omega⟩

/-! ## §4 Forms of natural numbers -/

/-- The number with these digits base 128, the least significant first. -/
def ofDigits : List UInt8 → Nat
  | [] => 0
  | b :: form => b.toNat % 128 + 128 * ofDigits form

/-- A form of a number of the given width: its digits, with the high bit set on every one but the
last. Zeros may follow the digits that are needed, up to the length of the widest number. -/
structure Form (bits n : Nat) (form : List UInt8) : Prop where
  fits : n < 2 ^ bits
  length : 7 * form.length < bits + 7
  digits : ofDigits form = n
  continued : ∀ b ∈ form.dropLast, 128 ≤ b.toNat
  ended : ∃ b, form.getLast? = some b ∧ b.toNat < 128

/-- A form of a number that no other form of it is shorter than. -/
def Shortest (bits n : Nat) (form : List UInt8) : Prop :=
  Form bits n form ∧ ∀ other, Form bits n other → form.length ≤ other.length

variable {bits n : Nat} {b : UInt8} {form : List UInt8}

theorem form_singleton :
    Form bits n [b] ↔ 0 < bits ∧ b.toNat < 128 ∧ n = b.toNat ∧ n < 2 ^ bits := by
  constructor
  · intro h
    obtain ⟨last, hlast, hended⟩ := h.ended
    obtain rfl : b = last := by simpa using hlast
    have hlength := h.length
    have hdigits := h.digits
    simp only [ofDigits, List.length_singleton] at hlength hdigits
    exact ⟨by omega, hended, by omega, h.fits⟩
  · rintro ⟨hbits, hended, rfl, hfits⟩
    refine ⟨hfits, ?_, ?_, by simp, b, rfl, hended⟩
    · rw [List.length_singleton]
      omega
    · simp only [ofDigits]
      omega

/-- The first of several bytes is one digit; the others are a form of what is left. -/
theorem form_cons (hne : form ≠ []) :
    Form bits n (b :: form) ↔
      7 < bits ∧ 128 ≤ b.toNat ∧ ∃ m, Form (bits - 7) m form ∧ n = b.toNat % 128 + 128 * m := by
  have hpos : 0 < form.length := List.length_pos_iff.mpr hne
  constructor
  · rintro ⟨hfits, hlength, rfl, hcontinued, hended⟩
    rw [List.length_cons] at hlength
    rw [List.dropLast_cons_of_ne_nil hne, List.forall_mem_cons] at hcontinued
    rw [List.getLast?_cons_of_ne_nil hne] at hended
    have hbits : 7 < bits := by omega
    have hsplit := two_pow_eq_mul hbits.le
    simp only [ofDigits] at hfits
    refine ⟨hbits, hcontinued.1, ofDigits form, ?_, rfl⟩
    exact ⟨by omega, by omega, rfl, hcontinued.2, hended⟩
  · rintro ⟨hbits, hfirst, m, h, rfl⟩
    have hsplit := two_pow_eq_mul hbits.le
    have hfits := h.fits
    have hlength := h.length
    refine ⟨by omega, ?_, ?_, ?_, ?_⟩
    · rw [List.length_cons]
      omega
    · rw [ofDigits, h.digits]
    · rw [List.dropLast_cons_of_ne_nil hne, List.forall_mem_cons]
      exact ⟨hfirst, h.continued⟩
    · rw [List.getLast?_cons_of_ne_nil hne]
      exact h.ended

/-- A form is read as its number, whatever follows it. -/
theorem Form.readUnsigned (h : Form bits n form) (rest : List UInt8) :
    readUnsigned bits (form ++ rest) = .ok (n, form.length, rest) := by
  -- along the bytes; each but the last takes seven bits from the width
  induction form generalizing bits n with
  | nil =>
    obtain ⟨b, hlast, -⟩ := h.ended
    cases hlast
  | cons b form ih =>
    by_cases hne : form = []
    · subst hne
      obtain ⟨-, hended, rfl, hfits⟩ := form_singleton.mp h
      simp [Leb.readUnsigned, hended, hfits]
    · obtain ⟨hbits, hfirst, m, hform, rfl⟩ := (form_cons hne).mp h
      rw [List.cons_append, Leb.readUnsigned, if_neg (by omega), if_neg (by omega), ih hform]
      rfl

/-- What is read is a form of the number. -/
theorem readUnsigned_form {used : Nat} {bytes rest : List UInt8} (hbits : 0 < bits)
    (h : readUnsigned bits bytes = .ok (n, used, rest)) :
    ∃ form, bytes = form ++ rest ∧ form.length = used ∧ Form bits n form := by
  induction bytes generalizing bits n used with
  | nil => simp [readUnsigned] at h
  | cons b bytes ih =>
    rw [readUnsigned] at h
    split_ifs at h with hlast hfits hlong
    · obtain ⟨rfl, rfl, rfl⟩ := by simpa using h
      exact ⟨[b], rfl, rfl, form_singleton.mpr ⟨hbits, hlast, rfl, hfits⟩⟩
    · cases hread : readUnsigned (bits - 7) bytes with
      | error e => simp [hread, bind, Except.bind] at h
      | ok result =>
        obtain ⟨m, k, rest'⟩ := result
        obtain ⟨rfl, rfl, rfl⟩ := by simpa [hread, bind, Except.bind, pure, Except.pure] using h
        obtain ⟨form, rfl, rfl, hform⟩ := ih (by omega) hread
        have hne : form ≠ [] := by
          rintro rfl
          obtain ⟨last, hnone, -⟩ := hform.ended
          cases hnone
        refine ⟨b :: form, rfl, rfl, ?_⟩
        exact (form_cons hne).mpr ⟨by omega, by omega, m, hform, rfl⟩

/-- A number has one form of each length. -/
theorem Form.eq_of_length {other : List UInt8} (h : Form bits n form) (h' : Form bits n other)
    (hlength : form.length = other.length) : form = other := by
  induction form generalizing bits n other with
  | nil => exact (List.eq_nil_of_length_eq_zero hlength.symm).symm
  | cons b form ih =>
    obtain ⟨c, other, rfl⟩ := List.exists_cons_of_length_eq_add_one hlength.symm
    rw [List.length_cons, List.length_cons, Nat.add_right_cancel_iff] at hlength
    by_cases hne : form = []
    · subst hne
      obtain rfl := List.eq_nil_of_length_eq_zero hlength.symm
      obtain ⟨-, -, hb, -⟩ := form_singleton.mp h
      obtain ⟨-, -, hc, -⟩ := form_singleton.mp h'
      rw [UInt8.toNat_inj.mp (hb.symm.trans hc)]
    · have hne' : other ≠ [] := by
        rintro rfl
        exact hne (List.eq_nil_of_length_eq_zero hlength)
      obtain ⟨-, hb, m, hform, hvalue⟩ := (form_cons hne).mp h
      obtain ⟨-, hc, m', hother, hvalue'⟩ := (form_cons hne').mp h'
      -- both first bytes have the high bit, so they are the same if their digits are
      have hbyte : b.toNat = c.toNat := by
        have hblt := b.toNat_lt
        have hclt := c.toNat_lt
        omega
      obtain rfl : m = m' := by omega
      rw [UInt8.toNat_inj.mp hbyte, ih hform hother hlength]

/-- What is written for a number is the shortest of its forms, and there is no other as short. -/
theorem shortest_iff (hbits : 0 < bits) (h : n < 2 ^ bits) :
    Shortest bits n form ↔ form = unsigned n := by
  have hwritten : Shortest bits n (unsigned n) := by
    constructor
    · obtain ⟨read, hbytes, -, hread⟩ := readUnsigned_form hbits (readUnsigned_unsigned h [])
      rw [List.append_nil, List.append_nil] at hbytes
      exact hbytes ▸ hread
    · intro other hother
      exact (readUnsigned_bound (hother.readUnsigned [])).2
  constructor
  · rintro ⟨hform, hleast⟩
    exact hform.eq_of_length hwritten.1
      (Nat.le_antisymm (hleast _ hwritten.1) (hwritten.2 _ hform))
  · rintro rfl
    exact hwritten

end MeteredWasm.Wasm.Leb
