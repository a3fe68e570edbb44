import MeteredWasm.Metering.Charging
import MeteredWasm.Metering.FloatCalls
import MeteredWasm.Metering.InitialMemory
import MeteredWasm.Wasm.Decode
import MeteredWasm.Wasm.Encode

/-!
# Instrumentation

From the bytes of a contract to those of a module that pays for what it executes and leaves no float
instruction to the machine. Charging comes before the replacement of the float instructions, so
these are charged by their own price and the calls in their place are free.
-/

namespace MeteredWasm.Metering

open Wasm (Module)

/-- The usual ceiling on memory, in pages. -/
def defaultMaxPages : Nat := 528

/-- An instrumented module: itself, its binary form, the first contents of its memory, and how many
imports were injected. -/
structure Instrumented where
  module : Module
  wasm : List UInt8
  image : ByteArray
  injected : Nat
deriving Inhabited

/-- The initial and the maximal number of pages; without a memory both are zero. -/
def Instrumented.memoryPages (i : Instrumented) : Nat × Nat :=
  match i.module.memoryLimits? with
  | none => (0, 0)
  | some l => (l.initial, l.maximum.getD l.initial)

/-- Charge a module, replace its float instructions, and give all calls their final targets. -/
def meterBodies (m : Module) : Except Fault (Injection × Module) := do
  let (s, m) := chargeModule (Injection.start m) m
  let (s, m) ← replaceFloats s m
  return (s, s.remapCalls m)

/-- Instrument the module that bytes encode. -/
def instrument (wasm : List UInt8) (maxPages : Nat) : Except Fault Instrumented := do
  let decoded ← Module.decode wasm
  let (outcome, clamped) := clampMemory maxPages decoded
  outcome
  let (s, m) ← meterBodies clamped
  return { module := m, wasm := m.encode, image := ← initialImage m, injected := s.count }

end MeteredWasm.Metering
