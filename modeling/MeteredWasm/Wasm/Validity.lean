import MeteredWasm.Wasm.Layout
import MeteredWasm.Wasm.Typing

/-!
# Validity of modules

The rules a layout must keep before it is a module: indices in range, at most one table and one
memory, constant initial values, distinct export names, and well-typed bodies. The language is the
first version of the format with sign extension and with mutable globals that may be imported and
exported.
-/

namespace MeteredWasm.Wasm

namespace Layout

-- Sums of numbers begin with the core library's zero, whatever algebra is in scope.
attribute [local instance (high)] Zero.ofOfNat0

/-! ## §1 Index spaces -/

/-- The type indices of all functions, imported ones first. -/
def allFunctionTypes (m : Layout) : List Nat :=
  m.imports.filterMap Import.functionType? ++ m.functionTypes

/-- The tables, imported ones first. -/
def allTables (m : Layout) : List Limits :=
  m.imports.filterMap (fun i =>
    match i.kind with
    | .table limits => some limits
    | _ => none) ++ m.tables

/-- The memories, imported ones first. -/
def allMemories (m : Layout) : List Limits :=
  m.imports.filterMap Import.memory? ++ m.memories

/-- The types of the imported globals. -/
def importedGlobals (m : Layout) : List (ValueType × Bool) :=
  m.imports.filterMap fun i =>
    match i.kind with
    | .global type isMutable => some (type, isMutable)
    | _ => none

/-- The types of the globals, imported ones first. -/
def allGlobals (m : Layout) : List (ValueType × Bool) :=
  m.importedGlobals ++ m.globals.map fun g => (g.type, g.isMutable)

/-! ## §2 Rules -/

/-- A rule: a condition and what is wrong where it fails. -/
def rule (condition : Bool) (cause : Malformed) : Except Malformed Unit :=
  if condition then .ok () else .error cause

/-- The greatest number of pages of a memory. -/
def maxPages : Nat := 65536

/-- The greatest number of locals of a function, parameters included. -/
def maxLocals : Nat := 50000

/-- The minimum does not pass the maximum. -/
def limitsOrdered (l : Limits) : Bool :=
  match l.maximum with
  | some maximum => l.initial ≤ maximum
  | none => true

/-- Limits of a memory. -/
def memoryLimits (l : Limits) : Bool :=
  limitsOrdered l && decide (l.initial ≤ maxPages) && decide (l.maximum.getD 0 ≤ maxPages)

/-- An initial value has the expected type. A global can only be an imported one that is never
assigned. -/
def constant (imported : Array (ValueType × Bool)) (expected : ValueType) :
    Initializer → Except Malformed Unit
  | .const value => rule (value.type == expected) .typeMismatch
  | .global index =>
    match imported[index]? with
    | none => .error .notConstant
    | some (type, isMutable) => do
      rule (!isMutable) .notConstant
      rule (type == expected) .typeMismatch

/-- An element segment is for a table there is, with functions there are. -/
def elementRule (tables functions : Nat) (imported : Array (ValueType × Bool)) (e : RawElement) :
    Except Malformed Unit := do
  rule (e.table < tables) .unknownIndex
  constant imported .i32 e.offset
  rule (e.functions.all (· < functions)) .unknownIndex

/-- A data segment: passive, or active for a memory there is. -/
def dataRule (memories : Nat) (imported : Array (ValueType × Bool)) (d : RawData) :
    Except Malformed Unit := do
  match d.mode with
  | .active memory offset =>
    rule (memory < memories) .unknownIndex
    constant imported .i32 offset
  | .passive => .ok ()

/-- The size of the index space an export refers to. -/
def exportSpace (m : Layout) : ExportKind → Nat
  | .function => m.allFunctionTypes.length
  | .table => m.allTables.length
  | .memory => m.allMemories.length
  | .global => m.allGlobals.length

/-- The names of the exports are distinct. -/
def distinctNames (m : Layout) : Bool :=
  decide (m.exports.map Export.name).Nodup

/-- The limit on the weight of the border of a module: everything it imports and exports. -/
def maxBorderWeight : Nat := 1000000

/-- What something imported or exported weighs: a function as much as its signature, anything else
one. -/
def borderWeight : Option Signature → Nat
  | some s => 2 + s.params.length + s.result.toList.length
  | none => 1

/-- The signature of an exported function. -/
def exportedSignature? (functions : Array Signature) (e : Export) : Option Signature :=
  if e.kind = .function then functions[e.index]? else none

/-- The signature of an imported function. -/
def importedSignature? (types : Array Signature) (i : Import) : Option Signature :=
  i.functionType?.bind fun type => types[type]?

/-- The border weighs less than its limit; the module itself adds one. -/
def borderWithin (m : Layout) (functions : Array Signature) : Bool :=
  let types := m.types.toArray
  let imported := m.imports.map fun i => borderWeight (importedSignature? types i)
  let exported := m.exports.map fun e => borderWeight (exportedSignature? functions e)
  1 + imported.sum + exported.sum < maxBorderWeight

/-- The locals of a function, one by one, parameters first. -/
def expandLocals (params : List ValueType) (runs : List (Nat × ValueType)) : Array ValueType :=
  (params ++ runs.flatMap fun (count, type) => List.replicate count type).toArray

/-- The number of locals, parameters included. -/
def localCount (params : List ValueType) (runs : List (Nat × ValueType)) : Nat :=
  runs.foldl (fun n run => n + run.1) params.length

/-- What the bodies of a layout may refer to, apart from their own locals. -/
def typeEnv (m : Layout) (functions : List Signature) : TypeEnv :=
  { types := m.types.toArray
    functions := functions.toArray
    globals := m.allGlobals.toArray
    hasTable := !m.allTables.isEmpty
    hasMemory := !m.allMemories.isEmpty
    locals := #[] }

/-- A body keeps the limit on locals and is well typed. -/
def bodyRule (env : TypeEnv) (s : Signature) (b : Body) : Except Malformed Unit := do
  rule (localCount s.params b.locals ≤ maxLocals) .tooMany
  checkBody { env with locals := expandLocals s.params b.locals } s.result (b.code.map Prod.fst)

/-- The signatures of functions whose types must be in range. -/
def signatures (m : Layout) : Except Malformed (List Signature) :=
  m.allFunctionTypes.mapM fun type =>
    match m.types[type]? with
    | some s => .ok s
    | none => .error .unknownIndex

/-- The start function takes nothing and gives nothing. -/
def startRule (functions : List Signature) : Option Nat → Except Malformed Unit
  | none => .ok ()
  | some index =>
    match functions[index]? with
    | none => .error .unknownIndex
    | some s => rule (s.params.isEmpty && s.result.isNone) .badStart

/-! ## §3 The whole module -/

/-- All rules together. -/
def validate (m : Layout) : Except Malformed Unit := do
  let functions ← m.signatures
  rule (m.allTables.length ≤ 1) .tooMany
  rule (m.allTables.all limitsOrdered) .badLimits
  rule (m.allMemories.length ≤ 1) .tooMany
  rule (m.allMemories.all memoryLimits) .badLimits
  let imported := m.importedGlobals.toArray
  m.globals.forM fun g => constant imported g.type g.init
  rule (m.exports.all fun e => e.index < m.exportSpace e.kind) .unknownIndex
  rule m.distinctNames .duplicateExport
  rule (m.borderWithin functions.toArray) .tooMany
  startRule functions m.start
  m.elements.forM (elementRule m.allTables.length functions.length imported)
  m.data.forM (dataRule m.allMemories.length imported)
  rule (m.dataCount.isNone || m.dataCount == some m.data.length) .inconsistentLengths
  rule (m.bodies.length == m.functionTypes.length) .inconsistentLengths
  let env := m.typeEnv functions
  let defined := functions.drop (functions.length - m.functionTypes.length)
  (defined.zip m.bodies).forM fun (s, b) => bodyRule env s b

end Layout

end MeteredWasm.Wasm
