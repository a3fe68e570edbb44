/-!
# UTF-8

Reading bytes as text, one character at a time. A character that is cut short or malformed stands
for the longest prefix that could still have become one, and at least one byte.

* `Utf8.decode?` accepts exactly sequences of well-formed characters;
* `Utf8.decodeLossy` reads any bytes and puts U+FFFD for each malformed piece.
-/

namespace MeteredWasm.Text.Utf8

/-! ## §1 One character -/

/-- How a sequence continues after its first byte: how many bytes are still owed, the bits the
first byte gives, and the range the second byte must lie in. -/
structure Lead where
  owed : Nat
  bits : Nat
  low : Nat
  high : Nat

/-- What a first byte announces, or `none` for a byte that starts no character. The ranges of the
second byte leave out overlong forms, surrogates and everything above U+10FFFF. -/
def lead? (b : Nat) : Option Lead :=
  if b < 0x80 then some ⟨0, b, 0, 0⟩
  else if b < 0xC2 then none
  else if b < 0xE0 then some ⟨1, b - 0xC0, 0x80, 0xBF⟩
  else if b < 0xF0 then
    some ⟨2, b - 0xE0, if b = 0xE0 then 0xA0 else 0x80, if b = 0xED then 0x9F else 0xBF⟩
  else if b < 0xF5 then
    some ⟨3, b - 0xF0, if b = 0xF0 then 0x90 else 0x80, if b = 0xF4 then 0x8F else 0xBF⟩
  else none

/-- Take up to `owed` continuation bytes, the first of them within the given range. Gives the code
point, or `none` when a byte is missing or out of range, and the bytes that were not used. -/
def continuation : (owed bits low high : Nat) → List UInt8 → Option Nat × List UInt8
  | 0, bits, _, _, bytes => (some bits, bytes)
  | _ + 1, _, _, _, [] => (none, [])
  | owed + 1, bits, low, high, b :: rest =>
    if low ≤ b.toNat ∧ b.toNat ≤ high then
      continuation owed (bits * 64 + b.toNat % 64) 0x80 0xBF rest
    else (none, b :: rest)

/-- Continuation bytes are only ever removed. -/
theorem length_continuation_le (owed bits low high : Nat) (bytes : List UInt8) :
    (continuation owed bits low high bytes).2.length ≤ bytes.length := by
  induction owed generalizing bits low high bytes with
  | zero => simp [continuation]
  | succ owed ih =>
    cases bytes with
    | nil => simp [continuation]
    | cons b rest =>
      simp only [continuation]
      split
      · exact Nat.le_trans (ih ..) (by simp)
      · exact Nat.le_refl _

/-- The first character of a nonempty sequence, `none` when it is malformed, and the rest. -/
def next (b : UInt8) (rest : List UInt8) : Option Char × List UInt8 :=
  match lead? b.toNat with
  | none => (none, rest)
  | some l =>
    let (code, rest') := continuation l.owed l.bits l.low l.high rest
    (code.map Char.ofNat, rest')

/-- Every step uses at least the first byte. -/
theorem length_next_le (b : UInt8) (rest : List UInt8) : (next b rest).2.length ≤ rest.length := by
  unfold next
  split
  · exact Nat.le_refl _
  · exact length_continuation_le ..

/-! ## §2 Whole sequences -/

/-- The pieces of a byte sequence in order: a character, or `none` for a malformed piece. -/
def pieces (acc : Array (Option Char)) : List UInt8 → Array (Option Char)
  | [] => acc
  | b :: rest => pieces (acc.push (next b rest).1) (next b rest).2
termination_by bytes => bytes.length
decreasing_by
  have := length_next_le b rest
  simp only [List.length_cons]
  omega

/-- The text of well-formed bytes. -/
def decode? (bytes : List UInt8) : Option String :=
  String.fromUTF8? bytes.toByteArray

/-- The text of any bytes, with the replacement character for each malformed piece. -/
def decodeLossy (bytes : List UInt8) : String :=
  String.ofList ((pieces #[] bytes).toList.map fun c => c.getD '\uFFFD')

/-- The bytes of a text. -/
def encode (text : String) : List UInt8 :=
  text.toUTF8.data.toList

end MeteredWasm.Text.Utf8
