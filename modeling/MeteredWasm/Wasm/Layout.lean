import MeteredWasm.Wasm.Module

/-!
# The layout of a binary module

A module as its sections spell it, before it is checked: segments for any table or memory, any
number of tables and memories, function types and bodies still apart.
-/

namespace MeteredWasm.Wasm

/-! ## §1 Parts -/

/-- An element segment: the table and the place in it, and the functions that go there. -/
structure RawElement where
  table : Nat
  offset : Initializer
  functions : List Nat
deriving DecidableEq, Repr

/-- Where a data segment goes. A passive one goes nowhere of its own accord. -/
inductive SegmentMode where
  | active (memory : Nat) (offset : Initializer)
  | passive
deriving DecidableEq, Repr

/-- A data segment of any kind. -/
structure RawData where
  mode : SegmentMode
  bytes : List UInt8
deriving DecidableEq, Repr

/-- A function body: runs of locals, and each instruction with its meaning. -/
structure Body where
  locals : List (Nat × ValueType)
  code : List (Operator × Instr)
deriving DecidableEq, Repr

/-- The contents of all sections but the custom ones. -/
structure Layout where
  types : List Signature
  imports : List Import
  functionTypes : List Nat
  tables : List Limits
  memories : List Limits
  globals : List Global
  exports : List Export
  start : Option Nat
  elements : List RawElement
  dataCount : Option Nat
  bodies : List Body
  data : List RawData
deriving DecidableEq

instance : Inhabited Layout := ⟨⟨[], [], [], [], [], [], [], none, [], none, [], []⟩⟩

namespace Layout

open MeteredWasm.Wasm.Parser

/-! ## §2 Entries -/

/-- The greatest number of parameters of a function. -/
def maxParams : Nat := 1000

/-- The mark of a function type. It may be spelled out that the type is final, with a list of
supertypes that must then be empty. -/
def functionMark : Parser Unit := do
  match (← byte).toNat with
  | 0x60 => pure ()
  | 0x4F =>
    require ((← u32) == 0) .badType
    require ((← byte) == 0x60) .badType
  | _ => fail .badType

/-- A function signature with at most one result. -/
def signature : Parser Signature := do
  functionMark
  let params ← vec valueType
  require (params.length ≤ maxParams) .tooMany
  match ← vec valueType with
  | [] => return ⟨params, none⟩
  | [result] => return ⟨params, some result⟩
  | _ => fail .tooMany

/-- Limits with or without a maximum. -/
def limits : Parser Limits := do
  match (← byte).toNat with
  | 0 => return ⟨← u32, none⟩
  | 1 =>
    let initial ← u32
    return ⟨initial, some (← u32)⟩
  | _ => fail .badFlags

/-- The type of function references, in its short form or spelled out as a nullable reference. -/
def functionReference : Parser Unit := do
  match (← byte).toNat with
  | 0x70 => pure ()
  | 0x63 => require ((← byte) == 0x70) .badType
  | _ => fail .badType

/-- A table of function references. -/
def table : Parser Limits := do
  functionReference
  limits

/-- The type of a global and whether it can be assigned. -/
def globalType : Parser (ValueType × Bool) := do
  let type ← valueType
  match (← byte).toNat with
  | 0 => return (type, false)
  | 1 => return (type, true)
  | _ => fail .badFlags

/-- A constant expression: one constant, or one global, and nothing else. -/
def initializer : Parser Initializer := do
  let init ← (do
    match ← Operator.parse with
    | .const value => return Initializer.const value
    | .globalGet index => return .global index
    | _ => fail .notConstant)
  match ← Operator.parse with
  | .endBlock => return init
  | _ => fail .notConstant

/-- An import. -/
def importEntry : Parser Import := do
  let namespace_ ← name
  let itemName ← name
  let kind ← (do
    match (← byte).toNat with
    | 0 => return ImportKind.function (← u32)
    | 1 => return .table (← table)
    | 2 => return .memory (← limits)
    | 3 =>
      let (type, isMutable) ← globalType
      return .global type isMutable
    | _ => fail .badType)
  return ⟨namespace_, itemName, kind⟩

/-- A global with its initial value. -/
def global : Parser Global := do
  let (type, isMutable) ← globalType
  return ⟨type, isMutable, ← initializer⟩

/-- An export. -/
def exportEntry : Parser Export := do
  let itemName ← name
  let kind ← (do
    match (← byte).toNat with
    | 0 => return ExportKind.function
    | 1 => return .table
    | 2 => return .memory
    | 3 => return .global
    | _ => fail .badType)
  return ⟨itemName, kind, ← u32⟩

/-- An element segment. The flags say whether it names its table and the kind of its items, which
can only be functions. -/
def elementSegment : Parser RawElement := do
  match ← u32 with
  | 0 =>
    let offset ← initializer
    return ⟨0, offset, ← vec u32⟩
  | 2 =>
    let table ← u32
    let offset ← initializer
    require ((← byte) == 0) .badType
    return ⟨table, offset, ← vec u32⟩
  | _ => fail .badFlags

/-- A data segment. -/
def dataSegment : Parser RawData := do
  let mode ← (do
    match ← u32 with
    | 0 => return SegmentMode.active 0 (← initializer)
    | 1 => return .passive
    | 2 =>
      let index ← u32
      return .active index (← initializer)
    | _ => fail .badFlags)
  let length ← u32
  return ⟨mode, ← take length⟩

/-- Instructions up to the end of the input, after those collected already. The fuel is the number
of bytes that are left. -/
def instructions : (fuel : Nat) → Array (Operator × Instr) → Parser (List (Operator × Instr))
  | 0, acc => pure acc.toList
  | fuel + 1, acc => do
    if (← get).bytes.isEmpty then return acc.toList
    let instr ← Instr.parse
    instructions fuel (acc.push instr)

/-- A function body. -/
def body : Parser Body := do
  let locals ← vec (do
    let count ← u32
    return (count, ← valueType))
  let fuel := (← get).bytes.length
  return ⟨locals, ← instructions fuel #[]⟩

/-! ## §3 Sections -/

/-- The place of a section among the others, by its number. The count of data segments stands
before the code. -/
def rank? : (id : Nat) → Option Nat
  | 1 => some 1
  | 2 => some 2
  | 3 => some 3
  | 4 => some 4
  | 5 => some 5
  | 6 => some 6
  | 7 => some 7
  | 8 => some 8
  | 9 => some 9
  | 12 => some 10
  | 10 => some 11
  | 11 => some 12
  | _ => none

/-- Parse the contents of a section into the layout. -/
def sectionContents (id : Nat) (m : Layout) : Parser Layout := do
  match id with
  | 1 => return { m with types := ← vec signature }
  | 2 => return { m with imports := ← vec importEntry }
  | 3 => return { m with functionTypes := ← vec u32 }
  | 4 => return { m with tables := ← vec table }
  | 5 => return { m with memories := ← vec limits }
  | 6 => return { m with globals := ← vec global }
  | 7 => return { m with exports := ← vec exportEntry }
  | 8 => return { m with start := some (← u32) }
  | 9 => return { m with elements := ← vec elementSegment }
  | 10 => return { m with bodies := ← vec (sized body) }
  | 11 => return { m with data := ← vec dataSegment }
  | 12 => return { m with dataCount := some (← u32) }
  | _ => fail .unknownSection

/-- A custom section: a name, and contents that are not looked at. -/
def customSection : Parser Unit := do
  let _ ← name
  modify fun s => ⟨[], s.offset + s.bytes.length⟩

/-- Sections up to the end of the input. Each but the custom ones comes at most once and in order.
The fuel is the number of bytes that are left. -/
def sections : (fuel : Nat) → (lastRank : Nat) → Layout → Parser Layout
  | 0, _, m => pure m
  | fuel + 1, lastRank, m => do
    if (← get).bytes.isEmpty then return m
    let id := (← byte).toNat
    if id = 0 then
      sized customSection
      sections fuel lastRank m
    else
      match rank? id with
      | none => fail .unknownSection
      | some rank =>
        require (lastRank < rank) .sectionOrder
        let m ← sized (sectionContents id m)
        sections fuel rank m

/-- The mark and the version of the binary format. -/
def header : Parser Unit := do
  require ((← take 8) == [0x00, 0x61, 0x73, 0x6D, 0x01, 0x00, 0x00, 0x00]) .badHeader

/-- A whole module. -/
def parse (wasm : List UInt8) : Except Malformed Layout :=
  let parser : Parser Layout := do
    header
    sections wasm.length 0 default
  match parser ⟨wasm, 0⟩ with
  | .ok (m, _) => .ok m
  | .error e => .error e

end Layout

end MeteredWasm.Wasm
