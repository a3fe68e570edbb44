import MeteredWasm.Action
import MeteredWasm.Contract.Host
import MeteredWasm.Memory.Linear

/-!
# Sessions

The state of one invocation, and the steps a contract's calls to its host are made of: charging for
gas, reading and writing the memory, printing, and calling back. Gas only ever goes down, and a
charge that is not covered takes nothing.
-/

namespace MeteredWasm

/-! ## §1 The context of an invocation -/

/-- Limits on every invocation. -/
structure Config where
  /-- The ceiling on the size of a memory, in pages. -/
  maxMemoryPages : Nat := 528
  /-- The greatest depth of nested calls. -/
  maxCallDepth : UInt32 := 16
  /-- How many bytes of an assertion's message are kept. -/
  maxAssertMessage : UInt64 := 1024
deriving DecidableEq, Inhabited

/-- A request to run the code of a contract. -/
structure Invocation where
  code : List UInt8
  /-- The name of the action and its data. -/
  payload : List UInt8
  sender : Address
  receiver : Address
  owner : Address
  user : Address
  amount : UInt64
  stateKey : StateKey
  /-- Zero for an outermost call, one more for each nested one. -/
  depth : UInt32
deriving DecidableEq, Inhabited

/-- What a call to the host may read and change during one invocation. -/
structure Context (ω : Type) where
  world : ω
  memory : LinearMemory
  gas : Nat
  console : String
  /-- The limit for growing the memory. -/
  maxPages : Nat
  action : Action
  invocation : Invocation
  config : Config

/-- A context before anything has run. -/
def Context.start {ω : Type} (world : ω) (memory : LinearMemory) (gas : Nat) (action : Action)
    (invocation : Invocation) (config : Config) : Context ω :=
  ⟨world, memory, gas, "", config.maxMemoryPages, action, invocation, config⟩

/-- A step of an invocation: it may fail, and keeps what it has changed until then. -/
abbrev Session (ω : Type) := ExceptT Fault (StateM (Context ω))

namespace Session

variable {ω : Type}

/-! ## §2 Steps -/

/-- Deduct from the gas. If there is not enough, nothing is deducted. -/
def charge (cost : Nat) : Session ω Unit := do
  let have_ := (← get).gas
  if have_ < cost then throw (.outOfGas cost have_)
  modify fun c => { c with gas := c.gas - cost }

/-- The outcome of an operation that may trap. -/
def trap {α : Type} : Except Trap α → Session ω α
  | .ok a => pure a
  | .error t => throw (.trap t)

/-- The outcome of an operation that may fail. -/
def check {α : Type} : Except Fault α → Session ω α
  | .ok a => pure a
  | .error e => throw e

/-- The bytes of a range of the memory. -/
def slice (start length : UInt32) : Session ω (List UInt8) := do
  trap ((← get).memory.slice start.toNat length.toNat)

/-- Overwrite a range of the memory. -/
def write (start : UInt32) (bytes : List UInt8) : Session ω Unit := do
  let memory ← trap ((← get).memory.write start.toNat bytes)
  modify fun c => { c with memory := memory }

/-- Change the memory by an operation that may trap. -/
def changeMemory (f : LinearMemory → Except Trap LinearMemory) : Session ω Unit := do
  let memory ← trap (f (← get).memory)
  modify fun c => { c with memory := memory }

/-- The digest that stands in the memory at a position. -/
def digestAt (start : UInt32) : Session ω Digest := do
  return ⟨← trap ((← get).memory.sliceVector start.toNat 32)⟩

/-- Append to the console. -/
def print (text : String) : Session ω Unit :=
  modify fun c => { c with console := c.console ++ text }

/-- Call back into the host. -/
def callback {α : Type} (f : StateKey → StateM ω α) : Session ω α := do
  let c ← get
  let (a, world) := f c.invocation.stateKey c.world
  set { c with world := world }
  return a

/-- Lend a range of the memory to the host, which gives it back with other contents. -/
def lend (start length : UInt32)
    (f : StateKey → Vector UInt8 length.toNat → StateM ω (Int32 × Vector UInt8 length.toNat)) :
    Session ω Int32 := do
  let buffer ← trap ((← get).memory.sliceVector start.toNat length.toNat)
  let (result, buffer) ← callback fun key => f key buffer
  write start buffer.toList
  return result

/-- Grow the memory within the limit: the old number of pages, or minus one. -/
def growMemory (delta : Nat) : Session ω Int32 := do
  let c ← get
  let (result, memory) := c.memory.grow delta c.maxPages
  set { c with memory := memory }
  return result

end Session

end MeteredWasm
