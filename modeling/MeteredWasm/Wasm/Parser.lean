import MeteredWasm.Endian
import MeteredWasm.Wasm.Leb

/-!
# Parsing the binary format

A parser takes the bytes that are left and counts those it has used, so that the encoding of
whatever was parsed can be cut out of the input.
-/

namespace MeteredWasm.Wasm

/-- The bytes that are left and the number of bytes before them. -/
structure Input where
  bytes : List UInt8
  offset : Nat
deriving Inhabited

/-- A parser fails or gives a value and the input after it. -/
abbrev Parser := StateT Input (Except Malformed)

namespace Parser

/-! ## §1 Bytes and integers -/

/-- Refuse the input. -/
def fail {α : Type} (cause : Malformed) : Parser α :=
  fun _ => .error cause

/-- Go on only if a condition holds. -/
def require (condition : Bool) (cause : Malformed) : Parser Unit :=
  if condition then pure () else fail cause

/-- The next byte. -/
def byte : Parser UInt8 := fun s =>
  match s.bytes with
  | [] => .error .unexpectedEnd
  | b :: rest => .ok (b, ⟨rest, s.offset + 1⟩)

/-- A fixed number of bytes. -/
def take (count : Nat) : Parser (List UInt8) := fun s =>
  let (front, rest) := s.bytes.splitAt count
  if front.length = count then .ok (front, ⟨rest, s.offset + count⟩) else .error .unexpectedEnd

/-- An unsigned 32-bit integer. -/
def u32 : Parser Nat := fun s =>
  match Leb.readUnsigned 32 s.bytes with
  | .ok (n, used, rest) => .ok (n, ⟨rest, s.offset + used⟩)
  | .error e => .error e

/-- A signed integer of the given width. -/
def signed (bits : Nat) : Parser Int := fun s =>
  match Leb.readSigned bits s.bytes with
  | .ok (i, used, rest) => .ok (i, ⟨rest, s.offset + used⟩)
  | .error e => .error e

/-- A little-endian number of the given count of bytes. -/
def word (count : Nat) : Parser Nat := do
  return ofLittleEndian (← take count)

/-! ## §2 Repetition -/

/-- Parse `count` items after those collected already. -/
def repeatGo {α : Type} (p : Parser α) : (count : Nat) → Array α → Parser (List α)
  | 0, acc => pure acc.toList
  | count + 1, acc => do
    let a ← p
    repeatGo p count (acc.push a)

/-- A count and as many items. -/
def vec {α : Type} (p : Parser α) : Parser (List α) := do
  let count ← u32
  repeatGo p count #[]

/-- A length and a parser that uses exactly that many bytes. -/
def sized {α : Type} (p : Parser α) : Parser α := do
  let length ← u32
  let bytes ← take length
  match p ⟨bytes, 0⟩ with
  | .error e => fail e
  | .ok (a, rest) => if rest.bytes.isEmpty then pure a else fail .trailingBytes

/-- The longest name that is accepted, in bytes. -/
def maxNameLength : Nat := 100000

/-- A length and as many bytes of well-formed text. -/
def name : Parser String := do
  let length ← u32
  require (length ≤ maxNameLength) .tooMany
  let bytes ← take length
  match Text.Utf8.decode? bytes with
  | some text => pure text
  | none => fail .badText

/-! ## §3 Types -/

/-- A value type. -/
def valueType : Parser ValueType := do
  match (← byte).toNat with
  | 0x7F => pure .i32
  | 0x7E => pure .i64
  | 0x7D => pure .f32
  | 0x7C => pure .f64
  | _ => fail .badType

/-- The type of a block: no result, or one. -/
def blockType : Parser (Option ValueType) := do
  match (← byte).toNat with
  | 0x40 => pure none
  | 0x7F => pure (some .i32)
  | 0x7E => pure (some .i64)
  | 0x7D => pure (some .f32)
  | 0x7C => pure (some .f64)
  | _ => fail .badType

/-- A byte that must be zero. -/
def reserved : Parser Unit := do
  require ((← byte) == 0) .nonzeroReserved

end Parser

end MeteredWasm.Wasm
