import MeteredWasm.Gas.Price
import MeteredWasm.Metering.Injection

/-!
# Charging for gas

The instructions of a body fall into runs, each ended by a boundary: an instruction where control
may leave the straight line. Right before the boundary stands a charge for the whole run, boundary
included. Runs that cost nothing are not charged.
-/

namespace MeteredWasm.Metering

open Wasm (Signature Instr Function Module)

/-- The function that takes the charge. -/
def useGas : String := "use_gas"

/-- The amount is its only parameter. -/
def useGasSignature : Signature := ⟨[.i64], none⟩

/-- Opcodes that end a run: `loop`, `if`, `else`, `end`, the branches and `return`. -/
def isBoundary (opcode : UInt8) : Bool :=
  [0x03, 0x04, 0x05, 0x0B, 0x0C, 0x0D, 0x0E, 0x0F].contains opcode

/-- Charge the runs of a body, given what the current run has cost so far. -/
def chargeRuns (charge : Nat) : (pending : Nat) → List Instr → List Instr
  | _, [] => []
  | pending, i :: rest =>
    let cost := pending + Gas.price i.opcode
    if isBoundary i.opcode ∧ 0 < cost then
      .constI64 cost :: .call charge :: i :: chargeRuns charge 0 rest
    else i :: chargeRuns charge cost rest

/-- A function with its runs charged. -/
def chargeFunction (charge : Nat) (f : Function) : Function :=
  { f with body := chargeRuns charge 0 f.body }

/-- Charge every run of every body. -/
def chargeModule (s : Injection) (m : Module) : Injection × Module :=
  let (s, m) := s.add m useGas useGasSignature
  (s, { m with functions := m.functions.map (chargeFunction (s.logical useGas)) })

end MeteredWasm.Metering
