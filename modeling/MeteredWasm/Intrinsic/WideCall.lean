import MeteredWasm.Contract.Session
import MeteredWasm.Gas.Price
import MeteredWasm.Wasm.Signature
import MeteredWasm.Wide.Arithmetic

/-!
# Integers of 128 bits and quadruple floats

What a compiler calls for arithmetic the machine does not have. A wide argument comes as two halves,
the low one first; a wide result is written to the memory, at a position given as first argument.
-/

namespace MeteredWasm

open Wasm (ValueType Signature Value)
open SoftFloat (binary32 binary64 binary128)

/-- Arithmetic on wide words. -/
inductive WideCall where
  | shiftLeft
  | shiftRight
  | logicalShiftLeft
  | logicalShiftRight
  | divide
  | divideUnsigned
  | remainder
  | remainderUnsigned
  | multiply
  | quadAdd
  | quadSubtract
  | quadMultiply
  | quadDivide
  | quadNegate
  | quadEqual
  | quadNotEqual
  | quadGreaterEqual
  | quadGreater
  | quadLessEqual
  | quadLess
  | quadCompare
  | quadUnordered
  | quadOfInt32
  | quadOfInt64
  | quadOfUInt32
  | quadOfUInt64
  | doubleOfInt128
  | doubleOfUInt128
  | doubleOfInt32
  | quadOfSingle
  | quadOfDouble
  | quadToDouble
  | quadToSingle
  | quadToInt32
  | quadToInt64
  | quadToInt128
  | quadToUInt32
  | quadToUInt64
  | quadToUInt128
  | singleToInt128
  | doubleToInt128
  | singleToUInt128
  | doubleToUInt128
deriving DecidableEq, Repr

namespace WideCall

/-- All of them, in the order of the catalog. -/
def all : List WideCall :=
  [shiftLeft, shiftRight, logicalShiftLeft, logicalShiftRight, divide, divideUnsigned, remainder,
    remainderUnsigned, multiply, quadAdd, quadSubtract, quadMultiply, quadDivide, quadNegate,
    quadEqual, quadNotEqual, quadGreaterEqual, quadGreater, quadLessEqual, quadLess, quadCompare,
    quadUnordered, quadOfInt32, quadOfInt64, quadOfUInt32, quadOfUInt64, doubleOfInt128,
    doubleOfUInt128, doubleOfInt32, quadOfSingle, quadOfDouble, quadToDouble, quadToSingle,
    quadToInt32, quadToInt64, quadToInt128, quadToUInt32, quadToUInt64, quadToUInt128,
    singleToInt128, doubleToInt128, singleToUInt128, doubleToUInt128]

/-- The name of a call. -/
def name : WideCall → String
  | shiftLeft => "__ashlti3"
  | shiftRight => "__ashrti3"
  | logicalShiftLeft => "__lshlti3"
  | logicalShiftRight => "__lshrti3"
  | divide => "__divti3"
  | divideUnsigned => "__udivti3"
  | remainder => "__modti3"
  | remainderUnsigned => "__umodti3"
  | multiply => "__multi3"
  | quadAdd => "__addtf3"
  | quadSubtract => "__subtf3"
  | quadMultiply => "__multf3"
  | quadDivide => "__divtf3"
  | quadNegate => "__negtf2"
  | quadEqual => "__eqtf2"
  | quadNotEqual => "__netf2"
  | quadGreaterEqual => "__getf2"
  | quadGreater => "__gttf2"
  | quadLessEqual => "__letf2"
  | quadLess => "__lttf2"
  | quadCompare => "__cmptf2"
  | quadUnordered => "__unordtf2"
  | quadOfInt32 => "__floatsitf"
  | quadOfInt64 => "__floatditf"
  | quadOfUInt32 => "__floatunsitf"
  | quadOfUInt64 => "__floatunditf"
  | doubleOfInt128 => "__floattidf"
  | doubleOfUInt128 => "__floatuntidf"
  | doubleOfInt32 => "__floatsidf"
  | quadOfSingle => "__extendsftf2"
  | quadOfDouble => "__extenddftf2"
  | quadToDouble => "__trunctfdf2"
  | quadToSingle => "__trunctfsf2"
  | quadToInt32 => "__fixtfsi"
  | quadToInt64 => "__fixtfdi"
  | quadToInt128 => "__fixtfti"
  | quadToUInt32 => "__fixunstfsi"
  | quadToUInt64 => "__fixunstfdi"
  | quadToUInt128 => "__fixunstfti"
  | singleToInt128 => "__fixsfti"
  | doubleToInt128 => "__fixdfti"
  | singleToUInt128 => "__fixunssfti"
  | doubleToUInt128 => "__fixunsdfti"

/-! ## §1 Rules -/

/-- What is computed, by the shapes of arguments and result. -/
inductive Rule where
  /-- A wide word and an amount; the result is wide. -/
  | shift (f : Wide.Word → Nat → Wide.Word)
  | unary (f : Wide.Word → Wide.Word)
  | binary (f : Wide.Word → Wide.Word → Except Trap Wide.Word)
  | relation (f : Wide.Word → Wide.Word → Int)
  | ofInt32 (f : UInt32 → Wide.Word)
  | ofInt64 (f : UInt64 → Wide.Word)
  | ofSingle (f : UInt32 → Wide.Word)
  | ofDouble (f : UInt64 → Wide.Word)
  | toInt32 (f : Wide.Word → Int)
  | toInt64 (f : Wide.Word → Int)
  | toSingle (f : Wide.Word → UInt32)
  | toDouble (f : Wide.Word → UInt64)
  | doubleOfInt32 (f : UInt32 → UInt64)

/-- A rule that never traps. -/
def Rule.total (f : Wide.Word → Wide.Word → Wide.Word) : Rule :=
  .binary fun a b => .ok (f a b)

/-- What a call computes. A comparison gives a negative number, zero or a positive one, and of
numbers that have no order the answer that makes its relation fail. -/
def rule : WideCall → Rule
  | shiftLeft | logicalShiftLeft => .shift Wide.shl
  | shiftRight => .shift Wide.ashr
  | logicalShiftRight => .shift Wide.lshr
  | divide => .binary Wide.divSigned
  | divideUnsigned => .binary Wide.divUnsigned
  | remainder => .binary Wide.remSigned
  | remainderUnsigned => .binary Wide.remUnsigned
  | multiply => .total Wide.mul
  | quadAdd => .total Wide.quadAdd
  | quadSubtract => .total Wide.quadSub
  | quadMultiply => .total Wide.quadMul
  | quadDivide => .total Wide.quadDiv
  | quadNegate => .unary Wide.quadNeg
  | quadEqual | quadNotEqual | quadLessEqual | quadCompare =>
    .relation fun a b => Wide.quadCompare a b 1
  | quadGreaterEqual => .relation fun a b => Wide.quadCompare a b (-1)
  | quadGreater | quadLess => .relation fun a b => Wide.quadCompare a b 0
  | quadUnordered => .relation fun a b => if Wide.quadUnordered a b then 1 else 0
  | quadOfInt32 => .ofInt32 fun bits => Wide.quadOfInt bits.toInt32.toInt
  | quadOfInt64 => .ofInt64 fun bits => Wide.quadOfInt bits.toInt64.toInt
  | quadOfUInt32 => .ofInt32 fun bits => Wide.quadOfInt bits.toNat
  | quadOfUInt64 => .ofInt64 fun bits => Wide.quadOfInt bits.toNat
  | doubleOfInt128 => .toDouble Wide.doubleOfSigned
  | doubleOfUInt128 => .toDouble Wide.doubleOfUnsigned
  | doubleOfInt32 =>
    .doubleOfInt32 fun bits => UInt64.ofNat (SoftFloat.ofInt binary64 bits.toInt32.toInt)
  | quadOfSingle => .ofSingle Wide.quadOfSingle
  | quadOfDouble => .ofDouble Wide.quadOfDouble
  | quadToDouble => .toDouble Wide.quadToDouble
  | quadToSingle => .toSingle Wide.quadToSingle
  | quadToInt32 => .toInt32 fun a => Wide.toSignedSaturating binary128 a.toNat 32
  | quadToInt64 => .toInt64 fun a => Wide.toSignedSaturating binary128 a.toNat 64
  | quadToInt128 =>
    .unary fun a => BitVec.ofInt 128 (Wide.toSignedSaturating binary128 a.toNat 128)
  | quadToUInt32 => .toInt32 fun a => Wide.toUnsignedSaturating binary128 a.toNat 32
  | quadToUInt64 => .toInt64 fun a => Wide.toUnsignedSaturating binary128 a.toNat 64
  | quadToUInt128 =>
    .unary fun a => BitVec.ofNat 128 (Wide.toUnsignedSaturating binary128 a.toNat 128)
  | singleToInt128 =>
    .ofSingle fun bits => BitVec.ofInt 128 (Wide.toSignedSaturating binary32 bits.toNat 128)
  | doubleToInt128 =>
    .ofDouble fun bits => BitVec.ofInt 128 (Wide.toSignedSaturating binary64 bits.toNat 128)
  | singleToUInt128 =>
    .ofSingle fun bits => BitVec.ofNat 128 (Wide.toUnsignedSaturating binary32 bits.toNat 128)
  | doubleToUInt128 =>
    .ofDouble fun bits => BitVec.ofNat 128 (Wide.toUnsignedSaturating binary64 bits.toNat 128)

/-- The signature that a rule's shape has. -/
def Rule.signature : Rule → Signature
  | .shift _ => ⟨[.i32, .i64, .i64, .i32], none⟩
  | .unary _ => ⟨[.i32, .i64, .i64], none⟩
  | .binary _ => ⟨[.i32, .i64, .i64, .i64, .i64], none⟩
  | .relation _ => ⟨[.i64, .i64, .i64, .i64], some .i32⟩
  | .ofInt32 _ => ⟨[.i32, .i32], none⟩
  | .ofInt64 _ => ⟨[.i32, .i64], none⟩
  | .ofSingle _ => ⟨[.i32, .f32], none⟩
  | .ofDouble _ => ⟨[.i32, .f64], none⟩
  | .toInt32 _ => ⟨[.i64, .i64], some .i32⟩
  | .toInt64 _ => ⟨[.i64, .i64], some .i64⟩
  | .toSingle _ => ⟨[.i64, .i64], some .f32⟩
  | .toDouble _ => ⟨[.i64, .i64], some .f64⟩
  | .doubleOfInt32 _ => ⟨[.i32], some .f64⟩

/-- Write a wide result, least significant byte first. -/
def writeWide {ω : Type} (start : UInt32) (w : Wide.Word) : Session ω (Option Value) := do
  Session.write start (littleEndian 16 w.toNat)
  return none

/-- Compute by a rule. -/
def Rule.run {ω : Type} : Rule → List Value → Session ω (Option Value)
  | .shift f, [.i32 start, .i64 low, .i64 high, .i32 amount] =>
    writeWide start (f (Wide.join low high) amount.toNat)
  | .unary f, [.i32 start, .i64 low, .i64 high] => writeWide start (f (Wide.join low high))
  | .binary f, [.i32 start, .i64 lowA, .i64 highA, .i64 lowB, .i64 highB] => do
    writeWide start (← Session.trap (f (Wide.join lowA highA) (Wide.join lowB highB)))
  | .relation f, [.i64 lowA, .i64 highA, .i64 lowB, .i64 highB] =>
    return some (.i32 (UInt32.ofInt (f (Wide.join lowA highA) (Wide.join lowB highB))))
  | .ofInt32 f, [.i32 start, .i32 bits] => writeWide start (f bits)
  | .ofInt64 f, [.i32 start, .i64 bits] => writeWide start (f bits)
  | .ofSingle f, [.i32 start, .f32 bits] => writeWide start (f bits)
  | .ofDouble f, [.i32 start, .f64 bits] => writeWide start (f bits)
  | .toInt32 f, [.i64 low, .i64 high] =>
    return some (.i32 (UInt32.ofInt (f (Wide.join low high))))
  | .toInt64 f, [.i64 low, .i64 high] =>
    return some (.i64 (UInt64.ofInt (f (Wide.join low high))))
  | .toSingle f, [.i64 low, .i64 high] => return some (.f32 (f (Wide.join low high)))
  | .toDouble f, [.i64 low, .i64 high] => return some (.f64 (f (Wide.join low high)))
  | .doubleOfInt32 f, [.i32 bits] => return some (.f64 (f bits))
  | _, _ => throw .unmatchedArguments

/-! ## §2 Calls -/

/-- The signature of a call. -/
def signature (op : WideCall) : Signature :=
  op.rule.signature

/-- Every call has the same price. -/
def charges (_ : WideCall) : List Nat :=
  [Gas.callBase]

/-- The result of a call whose charge is paid. -/
def run {ω : Type} (op : WideCall) (args : List Value) : Session ω (Option Value) :=
  op.rule.run args

end WideCall

end MeteredWasm
