import MeteredWasm.Wasm.Validity

/-!
# Reading modules

From bytes to a module: parse, check, and keep what the instrumentation works with. A few things the
format allows are refused, because a module has no place for them: passive data segments, and
segments whose offset is not a plain constant.
-/

namespace MeteredWasm.Wasm

/-! ## §1 Segments -/

/-- The offset of a segment, which must be a plain constant. -/
def segmentOffset (kind : SegmentKind) : Initializer → Except Fault Nat
  | .const (.i32 bits) => .ok bits.toNat
  | _ => .error (.segmentOffset kind)

/-- An element segment as a module keeps it. -/
def RawElement.toSegment (e : RawElement) : Except Fault ElementSegment := do
  return ⟨← segmentOffset .element e.offset, e.functions⟩

/-- A data segment as a module keeps it. -/
def RawData.toSegment (d : RawData) : Except Fault DataSegment := do
  match d.mode with
  | .active _ offset => return ⟨← segmentOffset .data offset, d.bytes⟩
  | .passive => .error .passiveDataSegment

/-! ## §2 Modules -/

/-- A function from its type and its body. -/
def Body.toFunction (type : Nat) (b : Body) : Function :=
  ⟨type, b.locals, b.code.map Prod.snd⟩

/-- A module from a valid layout. -/
def Layout.toModule (l : Layout) : Except Fault Module := do
  let elements ← l.elements.mapM RawElement.toSegment
  let data ← l.data.mapM RawData.toSegment
  return {
    types := l.types
    imports := l.imports
    functions := l.functionTypes.zipWith Body.toFunction l.bodies
    table := l.tables.head?
    memory := l.memories.head?
    globals := l.globals
    exports := l.exports
    start := l.start
    elements := elements
    data := data }

/-- Faults of the format are serialization faults. -/
def liftMalformed {α : Type} : Except Malformed α → Except Fault α
  | .ok a => .ok a
  | .error e => .error (.malformed e)

/-- The module that bytes encode. -/
def Module.decode (wasm : List UInt8) : Except Fault Module := do
  let layout ← liftMalformed (Layout.parse wasm)
  liftMalformed layout.validate
  layout.toModule

end MeteredWasm.Wasm
