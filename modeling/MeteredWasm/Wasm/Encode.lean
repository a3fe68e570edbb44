import MeteredWasm.Endian
import MeteredWasm.Wasm.Module

/-!
# Writing modules

The binary form of a module: sections in order, none of them empty, every integer in its shortest
form, every segment active for the first table or memory.
-/

namespace MeteredWasm.Wasm

namespace Encode

/-! ## §1 Parts -/

/-- A count and the encodings of the items. -/
def vec {α : Type} (item : α → List UInt8) (items : List α) : List UInt8 :=
  Leb.unsigned items.length ++ items.flatMap item

/-- A length and the bytes. -/
def sized (bytes : List UInt8) : List UInt8 :=
  Leb.unsigned bytes.length ++ bytes

/-- A text, as the length and the bytes of its UTF-8 form. -/
def name (text : String) : List UInt8 :=
  sized (Text.Utf8.encode text)

/-- The byte of a value type. -/
def valueType : ValueType → UInt8
  | .i32 => 0x7F
  | .i64 => 0x7E
  | .f32 => 0x7D
  | .f64 => 0x7C

/-- A function signature. -/
def signature (s : Signature) : List UInt8 :=
  0x60 :: (vec (fun t => [valueType t]) s.params ++ vec (fun t => [valueType t]) s.result.toList)

/-- Limits, with a flag that tells whether there is a maximum. -/
def limits (l : Limits) : List UInt8 :=
  match l.maximum with
  | none => 0x00 :: Leb.unsigned l.initial
  | some maximum => 0x01 :: (Leb.unsigned l.initial ++ Leb.unsigned maximum)

/-- A table of function references. -/
def table (l : Limits) : List UInt8 :=
  0x70 :: limits l

/-- The type of a global. -/
def globalType (type : ValueType) (isMutable : Bool) : List UInt8 :=
  [valueType type, if isMutable then 0x01 else 0x00]

/-- The instruction that pushes a constant. -/
def constant : Value → List UInt8
  | .i32 bits => 0x41 :: Leb.signed bits.toInt32.toInt
  | .i64 bits => 0x42 :: Leb.signed bits.toInt64.toInt
  | .f32 bits => 0x43 :: littleEndian 4 bits.toNat
  | .f64 bits => 0x44 :: littleEndian 8 bits.toNat

/-- A constant expression. -/
def initializer : Initializer → List UInt8
  | .const value => constant value ++ [0x0B]
  | .global index => 0x23 :: (Leb.unsigned index ++ [0x0B])

/-- The constant expression of a segment's offset. -/
def segmentOffset (offset : Nat) : List UInt8 :=
  initializer (.const (.i32 (UInt32.ofNat offset)))

/-- An import. -/
def importEntry (i : Import) : List UInt8 :=
  name i.namespace_ ++ name i.name ++
    match i.kind with
    | .function type => 0x00 :: Leb.unsigned type
    | .table l => 0x01 :: table l
    | .memory l => 0x02 :: limits l
    | .global type isMutable => 0x03 :: globalType type isMutable

/-- A global. -/
def global (g : Global) : List UInt8 :=
  globalType g.type g.isMutable ++ initializer g.init

/-- The byte of an export's kind. -/
def exportKind : ExportKind → UInt8
  | .function => 0x00
  | .table => 0x01
  | .memory => 0x02
  | .global => 0x03

/-- An export. -/
def exportEntry (e : Export) : List UInt8 :=
  name e.name ++ exportKind e.kind :: Leb.unsigned e.index

/-- An element segment. -/
def elementSegment (s : ElementSegment) : List UInt8 :=
  0x00 :: (segmentOffset s.offset ++ vec Leb.unsigned s.functions)

/-- A data segment. -/
def dataSegment (s : DataSegment) : List UInt8 :=
  0x00 :: (segmentOffset s.offset ++ sized s.bytes)

/-- The locals and the instructions of a function. -/
def code (f : Function) : List UInt8 :=
  sized (vec (fun (count, type) => Leb.unsigned count ++ [valueType type]) f.locals ++
    f.body.flatMap Instr.encode)

/-! ## §2 Sections -/

/-- A section with the given contents. -/
def section_ (id : UInt8) (contents : List UInt8) : List UInt8 :=
  id :: sized contents

/-- A section that lists items, left out when there are none. -/
def listing {α : Type} (id : UInt8) (item : α → List UInt8) (items : List α) : List UInt8 :=
  if items.isEmpty then [] else section_ id (vec item items)

/-- The mark and the version of the binary format. -/
def header : List UInt8 :=
  [0x00, 0x61, 0x73, 0x6D, 0x01, 0x00, 0x00, 0x00]

/-- All sections of a module, in order. -/
def sections (m : Module) : List UInt8 :=
  listing 1 signature m.types ++
    listing 2 importEntry m.imports ++
    listing 3 (fun f => Leb.unsigned f.type) m.functions ++
    listing 4 table m.table.toList ++
    listing 5 limits m.memory.toList ++
    listing 6 global m.globals ++
    listing 7 exportEntry m.exports ++
    (match m.start with
      | none => []
      | some index => section_ 8 (Leb.unsigned index)) ++
    listing 9 elementSegment m.elements ++
    listing 10 code m.functions ++
    listing 11 dataSegment m.data

end Encode

/-- The binary form of a module. -/
def Module.encode (m : Module) : List UInt8 :=
  Encode.header ++ Encode.sections m

end MeteredWasm.Wasm
