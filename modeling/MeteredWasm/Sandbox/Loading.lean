import MeteredWasm.Intrinsic.Linking
import MeteredWasm.Metering.Instrument
import MeteredWasm.Sandbox.State

/-!
# Loading contracts

From the code of a contract to a module that is ready to run: instrument, link, instantiate. Each
code is loaded once; failures are kept too, since the same bytes fail the same way.
-/

namespace MeteredWasm

open Wasm (Signature Module)

/-- The exported functions of a module and their signatures. -/
def exportedFunctions (m : Module) : List (String × Signature) :=
  m.exports.filterMap fun e =>
    if e.kind = .function then (m.signature? e.index).map (e.name, ·) else none

variable {σ Inst : Type}

/-- Make a module ready to run. -/
def Loaded.build (engine : Engine σ Inst) (maxPages : Nat) (code : List UInt8) :
    StateM σ (Except Fault (Loaded Inst)) := do
  let linked := do
    let instrumented ← Metering.instrument code maxPages
    return (instrumented, ← Visibility.everything.link instrumented.module)
  match linked with
  | .error e => return .error e
  | .ok (instrumented, imports) =>
    match ← engine.instantiate instrumented.wasm imports with
    | .error e => return .error e
    | .ok inst =>
      return .ok {
        inst := inst
        exports := exportedFunctions instrumented.module
        initialPages := instrumented.memoryPages.1
        maxPages := instrumented.memoryPages.2
        image := instrumented.image }

namespace Cache

/-- The number of codes loaded since the cache was last cleared. -/
def size (c : Cache Inst) : Nat :=
  c.entries.length

/-- Forget all modules. The number of builds stays. -/
def clear (c : Cache Inst) : Cache Inst :=
  { c with entries := [] }

/-- Keep the outcome of a build. -/
def insert (c : Cache Inst) (id : Digest) (outcome : Except Fault (Loaded Inst)) : Cache Inst :=
  ⟨(id, outcome) :: c.entries, c.builds + 1⟩

end Cache

/-- The module of a digest; the code is loaded if the digest is new. -/
def World.load (engine : Engine σ Inst) (id : Digest) (code : List UInt8) :
    StateM (World σ Inst) (Except Fault (Loaded Inst)) := do
  let w ← get
  match w.sandbox.cache.entries.lookup id with
  | some outcome => return outcome
  | none =>
    let (outcome, outside) :=
      Loaded.build engine w.sandbox.config.maxMemoryPages code w.outside
    let cache := w.sandbox.cache.insert id outcome
    set { w with outside := outside, sandbox := { w.sandbox with cache := cache } }
    return outcome

end MeteredWasm
