import MeteredWasm.Sandbox.Loading

/-!
# Running contracts

An invocation checks its depth and its payload, loads the code, and calls the entry point over a
memory of its own. Whatever happens, the console and the gas that is left are reported.
-/

namespace MeteredWasm

open Wasm (Value)

variable {σ Inst : Type}

/-! ## §1 Calling exported functions -/

namespace Loaded

/-- What an exit makes of the outcome of a call: a normal end without a result. -/
def afterExit : Except Fault (Option Value) → Except Fault (Option Value)
  | .error (.exit _) => .ok none
  | outcome => outcome

/-- Set up the memory and call an exported function. Where there is no such export, there is
nothing to do. -/
def call (engine : Engine σ Inst) (host : Host (World σ Inst)) (l : Loaded Inst) (name : String)
    (args : List Value) : Session (World σ Inst) (Option Value) :=
  match l.exports.lookup name with
  | none => pure none
  | some s => do
    if s.params.length ≠ args.length then
      throw (.exportArity name s.params.length args.length)
    Session.changeMemory fun _ => LinearMemory.reset l.initialPages l.image
    modify fun c => { c with maxPages := l.maxPages }
    ExceptT.mk (afterExit <$> ExceptT.run (engine.invoke host l.inst name args))

/-- The function that every contract exports. -/
def entryPoint : String := "apply"

/-- Call the entry point with the name of an action, which must be its first parameter. -/
def apply (engine : Engine σ Inst) (host : Host (World σ Inst)) (l : Loaded Inst)
    (action : Name) : Session (World σ Inst) Unit := do
  match (l.exports.lookup entryPoint).bind (·.params.head?) with
  | some .i64 | none => pure ()
  | some _ => throw (.entryPointParameter entryPoint)
  let _ ← call engine host l entryPoint [.i64 action.value]

end Loaded

/-! ## §2 Invocations -/

/-- The outcome of an invocation: its result, what was printed, and the gas that is left. -/
structure Execution where
  result : Except Fault Unit
  console : String
  gas : Nat

namespace World

/-- Run a loaded module over a memory from the pool, which gets it back in the end. -/
def runLoaded (engine : Engine σ Inst) (host : Host (World σ Inst)) (l : Loaded Inst)
    (action : Action) (i : Invocation) (gas : Nat) : StateM (World σ Inst) Execution := do
  let w ← get
  let memory := w.sandbox.pool.headD LinearMemory.empty
  let entered := { w with sandbox := { w.sandbox with pool := w.sandbox.pool.tail } }
  let start := Context.start entered memory gas action i w.sandbox.config
  let (result, c) := (Loaded.apply engine host l action.name).run start
  let sandbox := c.world.sandbox
  set { c.world with sandbox := { sandbox with pool := c.memory :: sandbox.pool } }
  return ⟨result, c.console, c.gas⟩

/-- Run an invocation with some gas. -/
def run (engine : Engine σ Inst) (host : Host (World σ Inst)) (i : Invocation) (gas : Nat) :
    StateM (World σ Inst) Execution := do
  let w ← get
  let limit := w.sandbox.config.maxCallDepth
  if limit < i.depth then return ⟨.error (.callDepth i.depth limit), "", gas⟩
  match Action.ofPayload i.payload with
  | .error e => return ⟨.error e, "", gas⟩
  | .ok action =>
    match ← World.load engine (host.sha256 w i.code) i.code with
    | .error e => return ⟨.error e, "", gas⟩
    | .ok l => runLoaded engine host l action i gas

end World

/-- The status code of an invocation: zero for success. -/
def Execution.status (e : Execution) : Nat :=
  match e.result with
  | .ok () => 0
  | .error f => f.code

/-- A code is a contract when it is a valid module and imports only what contracts may import. -/
def validate (code : List UInt8) : Except Fault Unit := do
  let _ ← Visibility.contractOnly.link (← Wasm.Module.decode code)

end MeteredWasm
