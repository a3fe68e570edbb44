import MeteredWasm.Wasm.Module

/-!
# Injected imports

Instrumented code calls functions of the host that the contract did not import. Their imports are
put in front of all others, so every function of the contract moves up by one for each of them.
While imports are still being added, bodies refer to functions by *logical* indices that never
change: those of the contract as they were, and for the injected imports the indices after them.
When nothing more is added, `Injection.remap` turns logical indices into final ones.
-/

namespace MeteredWasm.Metering

open Wasm (Signature Import ImportKind Export ElementSegment Instr Function Module)

/-! ## §1 A session -/

/-- The namespace of injected imports. Contracts may not import from it. -/
def injectedNamespace : String := "eosio_injection"

/-- The injection into one module: the number of its functions beforehand, and the names imported
since, in order. -/
structure Injection where
  base : Nat
  names : List String
deriving DecidableEq, Inhabited, Repr

namespace Injection

/-- Nothing has been injected yet. -/
def start (m : Module) : Injection :=
  ⟨m.functionCount, []⟩

/-- The number of injected imports. -/
def count (s : Injection) : Nat :=
  s.names.length

/-- The logical index of an injected import: after the functions there were, in order. -/
def logical (s : Injection) (name : String) : Nat :=
  s.base + s.names.idxOf name

/-- The final index of a logical one: injected imports come first, all else moves behind them. -/
def remap (s : Injection) (target : Nat) : Nat :=
  if s.base ≤ target ∧ target < s.base + s.count then target - s.base else target + s.count

end Injection

/-! ## §2 Shifting a module -/

/-- An export after one function was inserted in front. -/
def shiftExport (e : Export) : Export :=
  match e.kind with
  | .function => { e with index := e.index + 1 }
  | _ => e

/-- An element segment after one function was inserted in front. -/
def shiftElements (s : ElementSegment) : ElementSegment :=
  { s with functions := s.functions.map (· + 1) }

/-- Insert a function import at a position of the import list. Every reference to a function from
outside the bodies moves up by one. -/
def insertImport (m : Module) (position : Nat) (name : String) (s : Signature) : Module :=
  let (type, m) := m.intern s
  { m with
    imports := m.imports.insertIdx position ⟨injectedNamespace, name, .function type⟩
    exports := m.exports.map shiftExport
    start := m.start.map (· + 1)
    elements := m.elements.map shiftElements }

namespace Injection

/-- Import a function behind those injected so far. A name that has been injected already changes
nothing. -/
def add (s : Injection) (m : Module) (name : String) (signature : Signature) :
    Injection × Module :=
  if name ∈ s.names then (s, m)
  else ({ s with names := s.names ++ [name] }, insertImport m s.count name signature)

/-! ## §3 Final indices -/

/-- A call with its final target. -/
def remapInstr (s : Injection) : Instr → Instr
  | .call target => .call (s.remap target)
  | .raw bytes => .raw bytes

/-- Give every call of a module its final target. -/
def remapCalls (s : Injection) (m : Module) : Module :=
  { m with
    functions := m.functions.map fun f => { f with body := f.body.map s.remapInstr } }

end Injection

end MeteredWasm.Metering
