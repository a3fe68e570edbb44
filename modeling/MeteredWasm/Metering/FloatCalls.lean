import MeteredWasm.Intrinsic.Catalog

/-!
# Calls in place of float instructions

Every instruction that computes with floats becomes a call to the function of the host that
computes the same, which is looked up by its name. Moves of bit patterns stay: they do not round.
What comes of this for a whole module can be said at once: the imports in the order of the
instructions, and then every call at its place.
-/

namespace MeteredWasm.Metering

open Wasm (Instr Function Module)

/-! ## §1 One instruction after the other -/

/-- The first and the last opcode of each range of instructions that compute with floats: the
comparisons, the arithmetic of both widths, and the conversions from and to floats. -/
def floatOpcodeRanges : List (UInt8 × UInt8) :=
  [(0x5B, 0x66), (0x8B, 0xA6), (0xA8, 0xAB), (0xAE, 0xBB)]

/-- Does an opcode compute with floats? -/
def isFloatOpcode (opcode : UInt8) : Bool :=
  floatOpcodeRanges.any fun range => range.1 ≤ opcode && opcode ≤ range.2

/-- The function of the host that computes what an opcode does. -/
def floatIntrinsic? (opcode : UInt8) : Option Intrinsic :=
  (SoftFloat.Operator.ofOpcode? opcode).bind fun op =>
    Intrinsic.find? injectedNamespace op.symbol

/-- Replace an instruction that computes with floats by a call, and import what is called; any other
instruction stays. -/
def replaceFloat (i : Instr) : StateT (Injection × Module) (Except Fault) Instr := do
  if isFloatOpcode i.opcode then
    match floatIntrinsic? i.opcode with
    | none => throw (.unknownFloatOpcode i.opcode)
    | some intrinsic =>
      modify fun state => state.1.add state.2 intrinsic.name intrinsic.signature
      return .call ((← get).1.logical intrinsic.name)
  else return i

/-- Replace the float instructions of a body, one after the other. -/
def replaceFloatsOf (f : Function) : StateT (Injection × Module) (Except Fault) Function := do
  return { f with body := ← f.body.mapM replaceFloat }

/-- Replace the float instructions of all bodies. An opcode that computes with floats but has no
function is refused. -/
def replaceFloats (s : Injection) (m : Module) : Except Fault (Injection × Module) := do
  let (functions, (s, m)) ← (m.functions.mapM replaceFloatsOf).run (s, m)
  return (s, { m with functions := functions })

/-! ## §2 All at once -/

/-- The float instruction that an item of a body is, if it is one. -/
def floatOperator? (i : Instr) : Option SoftFloat.Operator :=
  SoftFloat.Operator.ofOpcode? i.opcode

/-- The float instructions of a module, as often as they occur. -/
def floatOperators (m : Module) : List SoftFloat.Operator :=
  m.functions.flatMap fun f => f.body.filterMap floatOperator?

/-- Import what computes a float instruction. -/
def addOperator (state : Injection × Module) (op : SoftFloat.Operator) : Injection × Module :=
  state.1.add state.2 op.symbol op.signature

/-- A call in place of a float instruction; any other instruction stays. -/
def callOperator (s : Injection) (i : Instr) : Instr :=
  match floatOperator? i with
  | some op => .call (s.logical op.symbol)
  | none => i

/-- Import what the float instructions of all bodies need, and then replace them. -/
def callFloats (s : Injection) (m : Module) : Injection × Module :=
  let (s, m) := (floatOperators m).foldl addOperator (s, m)
  (s, { m with
    functions := m.functions.map fun f => { f with body := f.body.map (callOperator s) } })

end MeteredWasm.Metering
