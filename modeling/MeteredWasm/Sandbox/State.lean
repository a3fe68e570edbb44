import MeteredWasm.Intrinsic.Catalog

/-!
# The state of a sandbox

What a sandbox keeps between invocations: the modules it has loaded, by the digests of their codes,
and memories to be used again. It lives in a world beside whatever the embedder keeps there, since a
call from one contract to another goes out to the host and comes back to the same sandbox.
-/

namespace MeteredWasm

open Wasm (Signature Value)

/-- A module that is ready to run: its instance, the signatures of the functions it exports, and
the size and the first contents of its memory. -/
structure Loaded (Inst : Type) where
  inst : Inst
  exports : List (String × Signature)
  initialPages : Nat
  maxPages : Nat
  image : ByteArray

/-- The modules built so far, and the failures, each under the digest of its code; and the number
of builds there ever were. -/
structure Cache (Inst : Type) where
  entries : List (Digest × Except Fault (Loaded Inst))
  builds : Nat

/-- A sandbox: its limits, its modules, and the memories that no invocation uses, the last returned
first. -/
structure Sandbox (Inst : Type) where
  config : Config
  cache : Cache Inst
  pool : List LinearMemory

/-- The state of the embedder and that of the sandbox. -/
structure World (σ Inst : Type) where
  outside : σ
  sandbox : Sandbox Inst

/-- The machine that runs instrumented modules. It calls intrinsics by the imports that an instance
was made with, those injected first. -/
structure Engine (σ Inst : Type) where
  /-- Compile a binary module. -/
  instantiate : (wasm : List UInt8) → (imports : List Intrinsic) → StateM σ (Except Fault Inst)
  /-- Invoke an exported function. The memory is in the context, and has been set up. -/
  invoke : Host (World σ Inst) → Inst → (name : String) → (args : List Value) →
    Session (World σ Inst) (Option Value)

/-- A sandbox that has not run anything. -/
def Sandbox.fresh {Inst : Type} (config : Config) : Sandbox Inst :=
  ⟨config, ⟨[], 0⟩, []⟩

end MeteredWasm
