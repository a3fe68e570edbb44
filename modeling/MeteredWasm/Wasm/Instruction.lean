import MeteredWasm.Wasm.Parser

/-!
# Instructions

Two views of an instruction. An `Operator` is its meaning for typing and control flow, with the
immediates read. An `Instr` is what an instrumented body consists of: a call with its target, or any
other instruction as the bytes that encode it.
-/

namespace MeteredWasm.Wasm

/-! ## §1 Operators -/

/-- Where a memory instruction reads or writes, as declared. -/
structure MemArg where
  align : Nat
  offset : Nat
deriving DecidableEq, Repr

/-- An instruction with its immediates. -/
inductive Operator where
  | unreachable
  | nop
  | block (type : Option ValueType)
  | loop (type : Option ValueType)
  | ifThen (type : Option ValueType)
  | elseThen
  | endBlock
  | br (label : Nat)
  | brIf (label : Nat)
  | brTable (labels : List Nat) (default : Nat)
  | ret
  | call (function : Nat)
  | callIndirect (type : Nat)
  | drop
  | select
  | localGet (index : Nat)
  | localSet (index : Nat)
  | localTee (index : Nat)
  | globalGet (index : Nat)
  | globalSet (index : Nat)
  /-- A load of a value of the given type; `natural` is the greatest alignment it may declare. -/
  | load (type : ValueType) (natural : Nat) (arg : MemArg)
  | store (type : ValueType) (natural : Nat) (arg : MemArg)
  | memorySize
  | memoryGrow
  | const (value : Value)
  /-- A comparison, an arithmetic operation or a conversion. -/
  | numeric (opcode : UInt8)
deriving DecidableEq, Repr

/-- Signature of a numeric instruction with operands of one type. -/
def homogeneous (count : Nat) (operand result : ValueType) : Option Signature :=
  some ⟨List.replicate count operand, some result⟩

/-- The signature of a numeric instruction, by its opcode. -/
def numericSignature? (opcode : UInt8) : Option Signature :=
  let op := opcode.toNat
  if op < 0x45 then none
  else if op = 0x45 then homogeneous 1 .i32 .i32
  else if op ≤ 0x4F then homogeneous 2 .i32 .i32
  else if op = 0x50 then homogeneous 1 .i64 .i32
  else if op ≤ 0x5A then homogeneous 2 .i64 .i32
  else if op ≤ 0x60 then homogeneous 2 .f32 .i32
  else if op ≤ 0x66 then homogeneous 2 .f64 .i32
  else if op ≤ 0x69 then homogeneous 1 .i32 .i32
  else if op ≤ 0x78 then homogeneous 2 .i32 .i32
  else if op ≤ 0x7B then homogeneous 1 .i64 .i64
  else if op ≤ 0x8A then homogeneous 2 .i64 .i64
  else if op ≤ 0x91 then homogeneous 1 .f32 .f32
  else if op ≤ 0x98 then homogeneous 2 .f32 .f32
  else if op ≤ 0x9F then homogeneous 1 .f64 .f64
  else if op ≤ 0xA6 then homogeneous 2 .f64 .f64
  else if op = 0xA7 then homogeneous 1 .i64 .i32
  else if op ≤ 0xA9 then homogeneous 1 .f32 .i32
  else if op ≤ 0xAB then homogeneous 1 .f64 .i32
  else if op ≤ 0xAD then homogeneous 1 .i32 .i64
  else if op ≤ 0xAF then homogeneous 1 .f32 .i64
  else if op ≤ 0xB1 then homogeneous 1 .f64 .i64
  else if op ≤ 0xB3 then homogeneous 1 .i32 .f32
  else if op ≤ 0xB5 then homogeneous 1 .i64 .f32
  else if op = 0xB6 then homogeneous 1 .f64 .f32
  else if op ≤ 0xB8 then homogeneous 1 .i32 .f64
  else if op ≤ 0xBA then homogeneous 1 .i64 .f64
  else if op = 0xBB then homogeneous 1 .f32 .f64
  else if op = 0xBC then homogeneous 1 .f32 .i32
  else if op = 0xBD then homogeneous 1 .f64 .i64
  else if op = 0xBE then homogeneous 1 .i32 .f32
  else if op = 0xBF then homogeneous 1 .i64 .f64
  else if op ≤ 0xC1 then homogeneous 1 .i32 .i32
  else if op ≤ 0xC4 then homogeneous 1 .i64 .i64
  else none

/-- The type and the natural alignment of a load, by its opcode. -/
def loadShape? (opcode : UInt8) : Option (ValueType × Nat) :=
  match opcode.toNat with
  | 0x28 => some (.i32, 2)
  | 0x29 => some (.i64, 3)
  | 0x2A => some (.f32, 2)
  | 0x2B => some (.f64, 3)
  | 0x2C | 0x2D => some (.i32, 0)
  | 0x2E | 0x2F => some (.i32, 1)
  | 0x30 | 0x31 => some (.i64, 0)
  | 0x32 | 0x33 => some (.i64, 1)
  | 0x34 | 0x35 => some (.i64, 2)
  | _ => none

/-- The type and the natural alignment of a store, by its opcode. -/
def storeShape? (opcode : UInt8) : Option (ValueType × Nat) :=
  match opcode.toNat with
  | 0x36 => some (.i32, 2)
  | 0x37 => some (.i64, 3)
  | 0x38 => some (.f32, 2)
  | 0x39 => some (.f64, 3)
  | 0x3A => some (.i32, 0)
  | 0x3B => some (.i32, 1)
  | 0x3C => some (.i64, 0)
  | 0x3D => some (.i64, 1)
  | 0x3E => some (.i64, 2)
  | _ => none

/-! ## §2 Parsing -/

/-- The immediates of a memory instruction. -/
def MemArg.parse : Parser MemArg := do
  let align ← Parser.u32
  let offset ← Parser.u32
  return ⟨align, offset⟩

/-- The immediates of an instruction whose opcode has been read. -/
def Operator.parseImmediates (opcode : UInt8) : Parser Operator :=
  match opcode.toNat with
  | 0x00 => pure .unreachable
  | 0x01 => pure .nop
  | 0x02 => .block <$> Parser.blockType
  | 0x03 => .loop <$> Parser.blockType
  | 0x04 => .ifThen <$> Parser.blockType
  | 0x05 => pure .elseThen
  | 0x0B => pure .endBlock
  | 0x0C => .br <$> Parser.u32
  | 0x0D => .brIf <$> Parser.u32
  | 0x0E => do
    let labels ← Parser.vec Parser.u32
    return .brTable labels (← Parser.u32)
  | 0x0F => pure .ret
  | 0x10 => .call <$> Parser.u32
  | 0x11 => do
    let type ← Parser.u32
    Parser.reserved
    return .callIndirect type
  | 0x1A => pure .drop
  | 0x1B => pure .select
  | 0x20 => .localGet <$> Parser.u32
  | 0x21 => .localSet <$> Parser.u32
  | 0x22 => .localTee <$> Parser.u32
  | 0x23 => .globalGet <$> Parser.u32
  | 0x24 => .globalSet <$> Parser.u32
  | 0x3F => do
    Parser.reserved
    return .memorySize
  | 0x40 => do
    Parser.reserved
    return .memoryGrow
  | 0x41 => do return .const (.i32 (UInt32.ofInt (← Parser.signed 32)))
  | 0x42 => do return .const (.i64 (UInt64.ofInt (← Parser.signed 64)))
  | 0x43 => do return .const (.f32 (UInt32.ofNat (← Parser.word 4)))
  | 0x44 => do return .const (.f64 (UInt64.ofNat (← Parser.word 8)))
  | _ =>
    match loadShape? opcode, storeShape? opcode, numericSignature? opcode with
    | some (type, natural), _, _ => .load type natural <$> MemArg.parse
    | _, some (type, natural), _ => .store type natural <$> MemArg.parse
    | _, _, some _ => pure (.numeric opcode)
    | _, _, _ => Parser.fail (.unknownOpcode opcode)

/-- An instruction. -/
def Operator.parse : Parser Operator := do
  Operator.parseImmediates (← Parser.byte)

/-! ## §3 Instructions of a body -/

/-- An instruction of a body: a call with its target, or the encoding of any other instruction. -/
inductive Instr where
  | call (target : Nat)
  | raw (bytes : List UInt8)
deriving DecidableEq, Repr

instance : Inhabited Instr := ⟨.raw []⟩

namespace Instr

/-- The opcode of a call. -/
def callOpcode : UInt8 := 0x10

/-- The first byte of an instruction's encoding. -/
def opcode : Instr → UInt8
  | .call _ => callOpcode
  | .raw bytes => bytes.headD 0

/-- The instruction that pushes a 64-bit constant. -/
def constI64 (i : Int) : Instr :=
  .raw (0x42 :: Leb.signed i)

/-- The encoding of an instruction. The target of a call is written in the shortest form. -/
def encode : Instr → List UInt8
  | .call target => callOpcode :: Leb.unsigned target
  | .raw bytes => bytes

/-- Keep the encoding of an instruction that was parsed from it, except that a call is kept as its
target. -/
def ofOperator (operator : Operator) (encoding : List UInt8) : Instr :=
  match operator with
  | .call target => .call target
  | _ => .raw encoding

/-- The meaning of an instruction, when its bytes encode exactly one. -/
def operator? : Instr → Option Operator
  | .call target => some (.call target)
  | .raw bytes =>
    match Operator.parse ⟨bytes, 0⟩ with
    | .ok (operator, rest) => if rest.bytes.isEmpty then some operator else none
    | .error _ => none

/-- Parse one instruction, as its meaning and as an item of a body. -/
def parse : Parser (Operator × Instr) := fun s =>
  match Operator.parse s with
  | .error e => .error e
  | .ok (operator, s') =>
    .ok ((operator, ofOperator operator (s.bytes.take (s'.offset - s.offset))), s')

end Instr

end MeteredWasm.Wasm
