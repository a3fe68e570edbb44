import MeteredWasm.Contract.Session
import MeteredWasm.Gas.Price
import MeteredWasm.Wasm.Signature

/-!
# Memory routines

Copying, comparing and filling ranges of the memory.
-/

namespace MeteredWasm

open Wasm (ValueType Signature Value)

/-- Routines on the memory. -/
inductive MemoryCall where
  | copy
  | move
  | compare
  | fill
deriving DecidableEq, Repr

namespace MemoryCall

/-- All of them, in the order of the catalog. -/
def all : List MemoryCall :=
  [copy, move, compare, fill]

/-- The name of a routine. -/
def name : MemoryCall → String
  | copy => "memcpy"
  | move => "memmove"
  | compare => "memcmp"
  | fill => "memset"

/-- All routines take a destination, a source or a value, and a length. -/
def signature (_ : MemoryCall) : Signature :=
  ⟨[.i32, .i32, .i32], some .i32⟩

/-- What is charged: a price by the length. -/
def charges (_ : MemoryCall) : List Value → List Nat
  | [_, _, .i32 length] => [Gas.callBase + Gas.memoryByte * length.toNat]
  | _ => [Gas.callBase]

/-- Two ranges of one length have a byte in common when their starts are closer than the length. -/
def overlap (a b length : UInt32) : Bool :=
  (max a.toNat b.toNat) - (min a.toNat b.toNat) < length.toNat

/-- The order of two byte strings, as a number. -/
def order (a b : List UInt8) : Int32 :=
  if a < b then -1 else if a = b then 0 else 1

/-- The result of a routine whose charge is paid. Copying refuses ranges that overlap; filling takes
the low byte of its value. -/
def run {ω : Type} : MemoryCall → List Value → Session ω (Option Value)
  | copy, [.i32 dst, .i32 src, .i32 length] => do
    if overlap dst src length then throw .overlappingCopy
    Session.changeMemory fun m => m.copyWithin dst.toNat src.toNat length.toNat
    return some (.i32 dst)
  | move, [.i32 dst, .i32 src, .i32 length] => do
    Session.changeMemory fun m => m.copyWithin dst.toNat src.toNat length.toNat
    return some (.i32 dst)
  | compare, [.i32 a, .i32 b, .i32 length] => do
    let a ← Session.slice a length
    return some (.ofInt32 (order a (← Session.slice b length)))
  | fill, [.i32 dst, .i32 value, .i32 length] => do
    Session.changeMemory fun m => m.fill dst.toNat value.toUInt8 length.toNat
    return some (.i32 dst)
  | _, _ => throw .unmatchedArguments

end MemoryCall

end MeteredWasm
