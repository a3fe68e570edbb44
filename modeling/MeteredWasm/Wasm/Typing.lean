import MeteredWasm.Wasm.Instruction

/-!
# Typing of function bodies

A body is checked instruction by instruction against a stack of control frames, each with the types
of the operands pushed inside it. After a branch that never falls through, the operands of the frame
are unknown: popping from them gives a type that fits every expectation.
-/

namespace MeteredWasm.Wasm

/-! ## §1 The environment -/

/-- What a body may refer to. -/
structure TypeEnv where
  types : Array Signature
  functions : Array Signature
  globals : Array (ValueType × Bool)
  hasTable : Bool
  hasMemory : Bool
  locals : Array ValueType

/-! ## §2 Control frames -/

/-- The constructs that open a frame. -/
inductive FrameKind where
  | function
  | block
  | loop
  | ifThen
  | elseThen
deriving DecidableEq, Repr

/-- An open construct: its result, the operands above its start, innermost first, where `none` is
an operand of unknown type, and whether the code here can be reached. -/
structure Frame where
  kind : FrameKind
  result : Option ValueType
  operands : List (Option ValueType)
  unreachable : Bool
deriving DecidableEq, Repr

/-- What a branch to a frame carries: nothing for a loop, whose label is its start. -/
def Frame.label (f : Frame) : Option ValueType :=
  match f.kind with
  | .loop => none
  | _ => f.result

/-- A frame that has just been opened. -/
def Frame.fresh (kind : FrameKind) (result : Option ValueType) : Frame :=
  ⟨kind, result, [], false⟩

/-- The open frames, innermost first. There is none once the body has ended. -/
abbrev Frames := List Frame

/-- A step of the check. -/
abbrev Check := StateT Frames (Except Malformed)

namespace Check

/-- Refuse the body. -/
def fail {α : Type} (cause : Malformed) : Check α :=
  fun _ => .error cause

/-- Go on only if a condition holds. -/
def require (condition : Bool) (cause : Malformed) : Check Unit :=
  if condition then pure () else fail cause

/-- A value that must be there. -/
def found {α : Type} (cause : Malformed) : Option α → Check α
  | some a => pure a
  | none => fail cause

/-! ## §3 Operands -/

/-- Push an operand. -/
def pushAny (type : Option ValueType) : Check Unit := fun frames =>
  match frames with
  | [] => .error .codeAfterEnd
  | f :: rest => .ok ((), { f with operands := type :: f.operands } :: rest)

/-- Push an operand of a known type. -/
def push (type : ValueType) : Check Unit :=
  pushAny (some type)

/-- Pop an operand of any type. -/
def popAny : Check (Option ValueType) := fun frames =>
  match frames with
  | [] => .error .codeAfterEnd
  | f :: rest =>
    match f.operands with
    | type :: operands => .ok (type, { f with operands := operands } :: rest)
    | [] => if f.unreachable then .ok (none, frames) else .error .typeMismatch

/-- Pop an operand that must have, or be able to have, the given type. -/
def pop (expected : ValueType) : Check (Option ValueType) := do
  let actual ← popAny
  require (actual == none || actual == some expected) .typeMismatch
  return actual

/-- Pop operands, the last one first. -/
def popAll (expected : List ValueType) : Check Unit :=
  expected.reverse.forM fun type => do
    let _ ← pop type

/-- Push the result of a signature, if it has one. -/
def pushResult (result : Option ValueType) : Check Unit :=
  match result with
  | some type => push type
  | none => pure ()

/-- Pop what a label or a result expects. -/
def popResult (result : Option ValueType) : Check Unit :=
  match result with
  | some type => do
    let _ ← pop type
  | none => pure ()

/-- Apply a signature to the operands. -/
def apply (s : Signature) : Check Unit := do
  popAll s.params
  pushResult s.result

/-! ## §4 Control -/

/-- The code from here to the end of the frame cannot be reached. -/
def setUnreachable : Check Unit := fun frames =>
  match frames with
  | [] => .error .codeAfterEnd
  | f :: rest => .ok ((), { f with operands := [], unreachable := true } :: rest)

/-- Open a frame. -/
def enter (kind : FrameKind) (result : Option ValueType) : Check Unit := fun frames =>
  match frames with
  | [] => .error .codeAfterEnd
  | _ => .ok ((), Frame.fresh kind result :: frames)

/-- Close the innermost frame, whose operands must be its result and nothing else. -/
def leave : Check Frame := do
  match ← get with
  | [] => fail .codeAfterEnd
  | f :: _ =>
    popResult f.result
    match ← get with
    | g :: rest =>
      require g.operands.isEmpty .typeMismatch
      set rest
      return f
    | [] => fail .codeAfterEnd

/-- What a branch to a label carries. -/
def labelType (label : Nat) : Check (Option ValueType) := do
  let f ← found .unknownIndex (← get)[label]?
  return f.label

/-- One target of a branch table: it carries as many operands as the default, and those on the
stack fit it. They stay on the stack as they are. -/
def branchTarget (default : Option ValueType) (label : Nat) : Check Unit := do
  let type ← labelType label
  require (type.isSome == default.isSome) .typeMismatch
  match type with
  | some type => do
    let actual ← pop type
    pushAny actual
  | none => pure ()

/-- The type of a selection between two operands. -/
def selected (a b : Option ValueType) : Check (Option ValueType) :=
  match a, b with
  | none, t | t, none => pure t
  | some a, some b => if a = b then pure (some a) else fail .typeMismatch

/-! ## §5 Instructions -/

/-- The innermost frame is that of a condition. -/
def requireThen (f : Frame) : Check Unit :=
  require (f.kind == .ifThen) .elseWithoutIf

/-- Open the second arm of a condition. There is a frame outside, since the first arm was no
function. -/
def enterElse (result : Option ValueType) : Check Unit :=
  modify (Frame.fresh .elseThen result :: ·)

/-- Check one instruction within an open frame. -/
def operator (env : TypeEnv) : Operator → Check Unit
  | .unreachable => setUnreachable
  | .nop => pure ()
  | .block type => enter .block type
  | .loop type => enter .loop type
  | .ifThen type => do
    let _ ← pop .i32
    enter .ifThen type
  | .elseThen => do
    let f ← leave
    requireThen f
    enterElse f.result
  | .endBlock => do
    let f ← leave
    -- without an `else` there is nothing that could leave a result
    require (f.kind != .ifThen || f.result.isNone) .typeMismatch
    if f.kind != .function then pushResult f.result
  | .br label => do
    popResult (← labelType label)
    setUnreachable
  | .brIf label => do
    let _ ← pop .i32
    let type ← labelType label
    popResult type
    pushResult type
  | .brTable labels default => do
    let _ ← pop .i32
    let type ← labelType default
    labels.forM (branchTarget type)
    popResult type
    setUnreachable
  | .ret => do
    match (← get).getLast? with
    | some f => popResult f.result
    | none => fail .codeAfterEnd
    setUnreachable
  | .call function => do
    apply (← found .unknownIndex env.functions[function]?)
  | .callIndirect type => do
    require env.hasTable .unknownIndex
    let s ← found .unknownIndex env.types[type]?
    let _ ← pop .i32
    apply s
  | .drop => do
    let _ ← popAny
  | .select => do
    let _ ← pop .i32
    let a ← popAny
    let b ← popAny
    pushAny (← selected a b)
  | .localGet index => do
    push (← found .unknownIndex env.locals[index]?)
  | .localSet index => do
    let _ ← pop (← found .unknownIndex env.locals[index]?)
  | .localTee index => do
    let type ← found .unknownIndex env.locals[index]?
    let _ ← pop type
    push type
  | .globalGet index => do
    let (type, _) ← found .unknownIndex env.globals[index]?
    push type
  | .globalSet index => do
    let (type, isMutable) ← found .unknownIndex env.globals[index]?
    require isMutable .immutableGlobal
    let _ ← pop type
  | .load type natural arg => do
    require env.hasMemory .unknownIndex
    require (arg.align ≤ natural) .alignment
    let _ ← pop .i32
    push type
  | .store type natural arg => do
    require env.hasMemory .unknownIndex
    require (arg.align ≤ natural) .alignment
    let _ ← pop type
    let _ ← pop .i32
  | .memorySize => do
    require env.hasMemory .unknownIndex
    push .i32
  | .memoryGrow => do
    require env.hasMemory .unknownIndex
    let _ ← pop .i32
    push .i32
  | .const value => push value.type
  | .numeric opcode => do
    apply (← found (.unknownOpcode opcode) (numericSignature? opcode))

/-- Check one instruction; nothing may follow the end of the function. -/
def instruction (env : TypeEnv) (op : Operator) : Check Unit := do
  require (!(← get).isEmpty) .codeAfterEnd
  operator env op

end Check

/-- Is a body well typed? It starts with the frame of the function and ends by closing it. -/
def checkBody (env : TypeEnv) (result : Option ValueType) (code : List Operator) :
    Except Malformed Unit :=
  match (code.forM (Check.instruction env)) [Frame.fresh .function result] with
  | .error e => .error e
  | .ok (_, []) => .ok ()
  | .ok (_, _ :: _) => .error .missingEnd

end MeteredWasm.Wasm
