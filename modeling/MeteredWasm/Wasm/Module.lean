import MeteredWasm.Wasm.Instruction

/-!
# Modules

A decoded module: what the instrumentation changes and what is needed to write the module out
again. Function bodies are lists of instructions; custom sections are not kept.
-/

namespace MeteredWasm.Wasm

/-! ## §1 Parts -/

/-- Limits of a table or a memory; those of a memory are in pages. -/
structure Limits where
  initial : Nat
  maximum : Option Nat
deriving DecidableEq, Inhabited, Repr

/-- What an import asks for. -/
inductive ImportKind where
  | function (type : Nat)
  | table (limits : Limits)
  | memory (limits : Limits)
  | global (type : ValueType) (isMutable : Bool)
deriving DecidableEq, Repr

/-- An import. -/
structure Import where
  namespace_ : String
  name : String
  kind : ImportKind
deriving DecidableEq, Repr

/-- A defined function: the index of its type, its locals as runs of one type, parameters excluded,
and its instructions with the final `end`. -/
structure Function where
  type : Nat
  locals : List (Nat × ValueType)
  body : List Instr
deriving DecidableEq, Repr

/-- The constant a global or a segment offset starts from. -/
inductive Initializer where
  | const (value : Value)
  | global (index : Nat)
deriving DecidableEq, Repr

/-- A defined global. -/
structure Global where
  type : ValueType
  isMutable : Bool
  init : Initializer
deriving DecidableEq, Repr

/-- What an export refers to. -/
inductive ExportKind where
  | function
  | table
  | memory
  | global
deriving DecidableEq, Repr

/-- An export. -/
structure Export where
  name : String
  kind : ExportKind
  index : Nat
deriving DecidableEq, Repr

/-- Function indices placed in the table. -/
structure ElementSegment where
  offset : Nat
  functions : List Nat
deriving DecidableEq, Repr

/-- Bytes placed in the memory. -/
structure DataSegment where
  offset : Nat
  bytes : List UInt8
deriving DecidableEq, Repr

/-- A module. -/
structure Module where
  types : List Signature
  imports : List Import
  functions : List Function
  table : Option Limits
  memory : Option Limits
  globals : List Global
  exports : List Export
  start : Option Nat
  elements : List ElementSegment
  data : List DataSegment
deriving DecidableEq

instance : Inhabited Module := ⟨⟨[], [], [], none, none, [], [], none, [], []⟩⟩

/-! ## §2 Queries -/

/-- The type index of an imported function. -/
def Import.functionType? (i : Import) : Option Nat :=
  match i.kind with
  | .function type => some type
  | _ => none

/-- The limits of an imported memory. -/
def Import.memory? (i : Import) : Option Limits :=
  match i.kind with
  | .memory limits => some limits
  | _ => none

namespace Module

/-- The type indices of the imported functions, which come first in the index space. -/
def importedTypes (m : Module) : List Nat :=
  m.imports.filterMap Import.functionType?

/-- The number of imported functions. -/
def importedCount (m : Module) : Nat :=
  m.importedTypes.length

/-- The size of the function index space. -/
def functionCount (m : Module) : Nat :=
  m.importedCount + m.functions.length

/-- The type indices of all functions, imported ones first. -/
def functionTypes (m : Module) : List Nat :=
  m.importedTypes ++ m.functions.map Function.type

/-- The signature of a function, imported or defined. -/
def signature? (m : Module) (function : Nat) : Option Signature :=
  m.functionTypes[function]?.bind fun type => m.types[type]?

/-- The index of the function exported under a name. -/
def exportedFunction? (m : Module) (name : String) : Option Nat :=
  (m.exports.find? fun e => e.kind == .function && e.name == name).map Export.index

/-- The limits of the memory, defined or else imported. -/
def memoryLimits? (m : Module) : Option Limits :=
  m.memory.or (m.imports.findSome? Import.memory?)

/-- The index of the first type equal to a signature, which is appended if there is none. -/
def intern (m : Module) (s : Signature) : Nat × Module :=
  match m.types.findIdx? (· == s) with
  | some index => (index, m)
  | none => (m.types.length, { m with types := m.types ++ [s] })

end Module

end MeteredWasm.Wasm
