import MeteredWasm.Fault

/-!
# Names

A name is a 64-bit word that packs up to thirteen symbols of a 32-letter alphabet: twelve symbols
of five bits from the most significant end, and a last one of four bits. The text of a name leaves
out the dots at its end, so a word has exactly one text.
-/

namespace MeteredWasm

/-- A packed identifier of an action or a table. -/
structure Name where
  value : UInt64
deriving DecidableEq, Inhabited, Repr

namespace Name

/-! ## §1 The alphabet -/

/-- The symbols in the order of their codes: a dot, the digits 1 to 5, and the small letters. -/
def alphabet : List Char :=
  ".12345abcdefghijklmnopqrstuvwxyz".toList

/-- The code of a byte. Bytes that are no symbol count as the dot. -/
def code (b : UInt8) : Nat :=
  let n := b.toNat
  if 97 ≤ n ∧ n ≤ 122 then n - 97 + 6
  else if 49 ≤ n ∧ n ≤ 53 then n - 49 + 1
  else 0

/-- The symbol of a code. -/
def symbol (code : Nat) : Char :=
  alphabet.getD code '.'

/-! ## §2 Packing and spelling -/

/-- The number whose digits in base 32 are given, most significant first. -/
def ofDigits (digits : List Nat) : Nat :=
  digits.foldl (fun n d => n * 32 + d) 0

/-- The last `count` digits of `n` in base 32, most significant first. -/
def digits : Nat → Nat → List Nat
  | 0, _ => []
  | count + 1, n => digits count (n / 32) ++ [n % 32]

/-- The codes of the first thirteen bytes, filled up with dots. -/
def codes (bytes : List UInt8) : List Nat :=
  (bytes.map code ++ List.replicate 13 0).take 13

/-- Pack the bytes of a text without checking them. The thirteenth symbol keeps its low four bits,
and what follows it is ignored. -/
def packBytes (bytes : List UInt8) : Name :=
  let cs := codes bytes
  ⟨UInt64.ofNat (ofDigits (cs.take 12) * 16 + cs.getD 12 0 % 16)⟩

/-- Pack a text without checking it. -/
def pack (text : String) : Name :=
  packBytes (Text.Utf8.encode text)

/-- The thirteen symbols of a name. -/
def symbols (n : Name) : List Char :=
  (digits 12 (n.value.toNat / 16) ++ [n.value.toNat % 16]).map symbol

/-- The text of a name: its symbols without the dots at the end. -/
def text (n : Name) : String :=
  String.ofList (n.symbols.reverse.dropWhile (· == '.')).reverse

/-- Read a name. Only the text that a name itself has is accepted. -/
def parse (text : String) : Except Fault Name :=
  if 13 < text.utf8ByteSize then .error (.nameTooLong text)
  else
    let name := pack text
    if name.text = text then .ok name else .error (.nameNotNormal text name.text)

end Name

end MeteredWasm
