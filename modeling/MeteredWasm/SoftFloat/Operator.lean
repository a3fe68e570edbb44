import MeteredWasm.Fault
import MeteredWasm.SoftFloat.Integral
import MeteredWasm.SoftFloat.Order

/-!
# Float instructions

The WebAssembly instructions that compute with floats, as one type: their opcodes, their names in
the text format, the names under which a host provides them, their signatures and their results.
Moves of bit patterns (constants, loads, stores and reinterpretation) are not among them.
-/

namespace MeteredWasm.SoftFloat

open Wasm (ValueType Signature Value)

/-! ## §1 Widths -/

/-- The float types. -/
inductive FloatWidth where
  | single
  | double
deriving DecidableEq, Repr

/-- The integer types. -/
inductive IntWidth where
  | word
  | long
deriving DecidableEq, Repr

namespace FloatWidth

/-- The interchange format of a width. -/
def format : FloatWidth → Format
  | .single => binary32
  | .double => binary64

/-- The value type of a width. -/
def type : FloatWidth → ValueType
  | .single => .f32
  | .double => .f64

/-- The value with a given encoding. -/
def value : FloatWidth → Nat → Value
  | .single, bits => .f32 (UInt32.ofNat bits)
  | .double, bits => .f64 (UInt64.ofNat bits)

/-- The encoding of a value of this width. -/
def bits? : FloatWidth → Value → Option Nat
  | .single, .f32 bits => some bits.toNat
  | .double, .f64 bits => some bits.toNat
  | _, _ => none

end FloatWidth

namespace IntWidth

/-- The number of bits. -/
def bits : IntWidth → Nat
  | .word => 32
  | .long => 64

/-- The value type of a width. -/
def type : IntWidth → ValueType
  | .word => .i32
  | .long => .i64

/-- The value of an integer, modulo the width. -/
def value : IntWidth → Int → Value
  | .word, i => .i32 (UInt32.ofInt i)
  | .long, i => .i64 (UInt64.ofInt i)

/-- The integer in a value of this width, signed or unsigned. -/
def int? : IntWidth → (isSigned : Bool) → Value → Option Int
  | .word, true, .i32 bits => some bits.toInt32.toInt
  | .word, false, .i32 bits => some bits.toNat
  | .long, true, .i64 bits => some bits.toInt64.toInt
  | .long, false, .i64 bits => some bits.toNat
  | _, _, _ => none

end IntWidth

/-! ## §2 The instructions -/

/-- Instructions with one float operand and a result of the same type. -/
inductive Unary where
  | abs
  | neg
  | ceil
  | floor
  | trunc
  | nearest
  | sqrt
deriving DecidableEq, Repr

/-- Instructions with two float operands and a result of the same type. -/
inductive Binary where
  | add
  | sub
  | mul
  | div
  | min
  | max
  | copysign
deriving DecidableEq, Repr

/-- Comparisons of two float operands. -/
inductive Relation where
  | eq
  | ne
  | lt
  | gt
  | le
  | ge
deriving DecidableEq, Repr

/-- The instructions that compute with floats. -/
inductive Operator where
  | unary (width : FloatWidth) (op : Unary)
  | binary (width : FloatWidth) (op : Binary)
  | relation (width : FloatWidth) (op : Relation)
  | truncate (source : FloatWidth) (target : IntWidth) (isSigned : Bool)
  | convert (source : IntWidth) (isSigned : Bool) (target : FloatWidth)
  | promote
  | demote
deriving DecidableEq, Repr

/-- The result of a unary instruction. -/
def Unary.eval (op : Unary) (fmt : Format) (a : Nat) : Nat :=
  match op with
  | .abs => SoftFloat.abs fmt a
  | .neg => SoftFloat.neg fmt a
  | .ceil => roundToIntegral fmt a .up
  | .floor => roundToIntegral fmt a .down
  | .trunc => roundToIntegral fmt a .towardZero
  | .nearest => roundToIntegral fmt a .nearest
  | .sqrt => SoftFloat.sqrt fmt a

/-- The result of a binary instruction. -/
def Binary.eval (op : Binary) (fmt : Format) (a b : Nat) : Nat :=
  match op with
  | .add => SoftFloat.add fmt a b
  | .sub => SoftFloat.sub fmt a b
  | .mul => SoftFloat.mul fmt a b
  | .div => SoftFloat.div fmt a b
  | .min => SoftFloat.min fmt a b
  | .max => SoftFloat.max fmt a b
  | .copysign => SoftFloat.copysign fmt a b

/-- The result of a comparison. Only `ne` holds of an unordered pair. -/
def Relation.eval (op : Relation) (fmt : Format) (a b : Nat) : Bool :=
  match op with
  | .eq => SoftFloat.eq fmt a b
  | .ne => !SoftFloat.eq fmt a b
  | .lt => SoftFloat.lt fmt a b
  | .gt => SoftFloat.lt fmt b a
  | .le => SoftFloat.le fmt a b
  | .ge => SoftFloat.le fmt b a

namespace Operator

/-- The parameters and the result of an instruction. -/
def signature : Operator → Signature
  | .unary w _ => ⟨[w.type], some w.type⟩
  | .binary w _ => ⟨[w.type, w.type], some w.type⟩
  | .relation w _ => ⟨[w.type, w.type], some .i32⟩
  | .truncate s t _ => ⟨[s.type], some t.type⟩
  | .convert s _ t => ⟨[s.type], some t.type⟩
  | .promote => ⟨[.f32], some .f64⟩
  | .demote => ⟨[.f64], some .f32⟩

/-- An operand of the expected type, or a fault. -/
def operand {α : Type} : Option α → Except Fault α
  | some a => .ok a
  | none => .error .unmatchedArguments

/-- The truncated integer, or the trap that stands for a value out of range. -/
def truncated {α : Type} : Option α → Except Fault α
  | some a => .ok a
  | none => .error (.trap .integerOverflow)

/-- Run an instruction on its operands. -/
def eval (op : Operator) (args : List Value) : Except Fault Value :=
  match op, args with
  | .unary w f, [a] => do
    let a ← operand (w.bits? a)
    return w.value (f.eval w.format a)
  | .binary w f, [a, b] => do
    let a ← operand (w.bits? a)
    let b ← operand (w.bits? b)
    return w.value (f.eval w.format a b)
  | .relation w f, [a, b] => do
    let a ← operand (w.bits? a)
    let b ← operand (w.bits? b)
    return .ofBool (f.eval w.format a b)
  | .truncate s t true, [a] => do
    let a ← operand (s.bits? a)
    return t.value (← truncated (truncateSigned s.format a t.bits))
  | .truncate s t false, [a] => do
    let a ← operand (s.bits? a)
    return t.value (← truncated (truncateUnsigned s.format a t.bits))
  | .convert s isSigned t, [a] => do
    let i ← operand (s.int? isSigned a)
    return t.value (ofInt t.format i)
  | .promote, [a] => do
    let a ← operand (FloatWidth.single.bits? a)
    return FloatWidth.double.value (SoftFloat.convert binary32 binary64 a)
  | .demote, [a] => do
    let a ← operand (FloatWidth.double.bits? a)
    return FloatWidth.single.value (SoftFloat.convert binary64 binary32 a)
  | _, _ => .error .unmatchedArguments

end Operator

/-! ## §3 Opcodes and names -/

/-- The place of a unary instruction among the arithmetic opcodes of its width. -/
def Unary.rank : Unary → Nat
  | .abs => 0
  | .neg => 1
  | .ceil => 2
  | .floor => 3
  | .trunc => 4
  | .nearest => 5
  | .sqrt => 6

/-- The place of a binary instruction among the arithmetic opcodes of its width. -/
def Binary.rank : Binary → Nat
  | .add => 7
  | .sub => 8
  | .mul => 9
  | .div => 10
  | .min => 11
  | .max => 12
  | .copysign => 13

/-- The place of a comparison among the comparisons of its width. -/
def Relation.rank : Relation → Nat
  | .eq => 0
  | .ne => 1
  | .lt => 2
  | .gt => 3
  | .le => 4
  | .ge => 5

/-- The word for a unary instruction. -/
def Unary.name : Unary → String
  | .abs => "abs"
  | .neg => "neg"
  | .ceil => "ceil"
  | .floor => "floor"
  | .trunc => "trunc"
  | .nearest => "nearest"
  | .sqrt => "sqrt"

/-- The word for a binary instruction. -/
def Binary.name : Binary → String
  | .add => "add"
  | .sub => "sub"
  | .mul => "mul"
  | .div => "div"
  | .min => "min"
  | .max => "max"
  | .copysign => "copysign"

/-- The word for a comparison. -/
def Relation.name : Relation → String
  | .eq => "eq"
  | .ne => "ne"
  | .lt => "lt"
  | .gt => "gt"
  | .le => "le"
  | .ge => "ge"

namespace Operator

/-- The opcode of an instruction, as a number. -/
def opcodeNat : Operator → Nat
  | .relation .single op => 0x5B + op.rank
  | .relation .double op => 0x61 + op.rank
  | .unary .single op => 0x8B + op.rank
  | .binary .single op => 0x8B + op.rank
  | .unary .double op => 0x99 + op.rank
  | .binary .double op => 0x99 + op.rank
  | .truncate .single .word true => 0xA8
  | .truncate .single .word false => 0xA9
  | .truncate .double .word true => 0xAA
  | .truncate .double .word false => 0xAB
  | .truncate .single .long true => 0xAE
  | .truncate .single .long false => 0xAF
  | .truncate .double .long true => 0xB0
  | .truncate .double .long false => 0xB1
  | .convert .word true .single => 0xB2
  | .convert .word false .single => 0xB3
  | .convert .long true .single => 0xB4
  | .convert .long false .single => 0xB5
  | .demote => 0xB6
  | .convert .word true .double => 0xB7
  | .convert .word false .double => 0xB8
  | .convert .long true .double => 0xB9
  | .convert .long false .double => 0xBA
  | .promote => 0xBB

/-- The opcode of an instruction. -/
def opcode (op : Operator) : UInt8 :=
  UInt8.ofNat op.opcodeNat

/-- The instruction's name in the text format. -/
def mnemonic : Operator → String
  | .unary w op => w.type.name ++ "." ++ op.name
  | .binary w op => w.type.name ++ "." ++ op.name
  | .relation w op => w.type.name ++ "." ++ op.name
  | .truncate s t isSigned =>
    t.type.name ++ ".trunc_" ++ s.type.name ++ (if isSigned then "_s" else "_u")
  | .convert s isSigned t =>
    t.type.name ++ ".convert_" ++ s.type.name ++ (if isSigned then "_s" else "_u")
  | .promote => "f64.promote_f32"
  | .demote => "f32.demote_f64"

/-- The name under which a host provides an instruction. -/
def symbol : Operator → String
  | .unary w op => "_eosio_" ++ w.type.name ++ "_" ++ op.name
  | .binary w op => "_eosio_" ++ w.type.name ++ "_" ++ op.name
  | .relation w op => "_eosio_" ++ w.type.name ++ "_" ++ op.name
  | .truncate s t isSigned =>
    "_eosio_" ++ s.type.name ++ "_trunc_" ++ t.type.name ++ (if isSigned then "s" else "u")
  | .convert s isSigned t =>
    "_eosio_" ++ (if isSigned then "" else "u") ++ s.type.name ++ "_to_" ++ t.type.name
  | .promote => "_eosio_f32_promote"
  | .demote => "_eosio_f64_demote"

/-- The arithmetic instructions of one width. -/
def arithmetic (w : FloatWidth) : List Operator :=
  [Binary.add, .sub, .mul, .div, .min, .max, .copysign].map (.binary w) ++
    [Unary.abs, .neg, .sqrt, .ceil, .floor, .trunc, .nearest].map (.unary w)

/-- The comparisons of one width. -/
def relations (w : FloatWidth) : List Operator :=
  [Relation.eq, .ne, .lt, .gt, .le, .ge].map (.relation w)

/-- The truncations to one integer type. -/
def truncations (t : IntWidth) : List Operator :=
  [.truncate .single t true, .truncate .single t false,
    .truncate .double t true, .truncate .double t false]

/-- The conversions into one float type. -/
def conversions (t : FloatWidth) : List Operator :=
  [.convert .word true t, .convert .word false t, .convert .long true t, .convert .long false t]

/-- Every float instruction once, in the order in which a host lists them. -/
def all : List Operator :=
  arithmetic .single ++ arithmetic .double ++ relations .single ++ relations .double ++
    [.promote, .demote] ++ truncations .word ++ truncations .long ++
    conversions .single ++ conversions .double

/-- The float instruction with a given opcode. -/
def ofOpcode? (opcode : UInt8) : Option Operator :=
  all.find? (·.opcode == opcode)

end Operator

end MeteredWasm.SoftFloat
