import MeteredWasm.Metering.Charging
import MeteredWasm.Metering.FloatCalls

/-!
# Opcodes and symbols of float instructions

A float instruction is known by its opcode and by the name under which a host provides it, and its
signature is the one that validation gives to the opcode. Each fact is read off the table of all
float instructions. What instrumentation injects is found in the catalog under these names.
-/

/-! ## §1 Names and opcodes -/

namespace MeteredWasm.SoftFloat.Operator

open MeteredWasm.Wasm

theorem ofOpcode?_mem {b : UInt8} {op : SoftFloat.Operator} (h : ofOpcode? b = some op) :
    op ∈ all :=
  List.mem_of_find?_eq_some h

theorem opcode_of_ofOpcode? {b : UInt8} {op : SoftFloat.Operator} (h : ofOpcode? b = some op) :
    op.opcode = b := by
  have hfound := List.find?_some h
  rwa [beq_iff_eq] at hfound

theorem ofOpcode?_opcode {op : SoftFloat.Operator} (hop : op ∈ all) :
    ofOpcode? op.opcode = some op := by
  have htable : ∀ op ∈ all, ofOpcode? op.opcode = some op := by decide +kernel
  exact htable op hop

/-- The operator with a given name. -/
def ofSymbol? (name : String) : Option SoftFloat.Operator :=
  all.find? (·.symbol == name)

/-- No two float instructions share a name, so the name leads back to the instruction. -/
theorem ofSymbol?_symbol {op : SoftFloat.Operator} (hop : op ∈ all) :
    ofSymbol? op.symbol = some op := by
  have htable : ∀ op ∈ all, ofSymbol? op.symbol = some op := by decide +kernel
  exact htable op hop

theorem symbol_inj {op op' : SoftFloat.Operator} (hop : op ∈ all) (hop' : op' ∈ all)
    (h : op.symbol = op'.symbol) : op = op' := by
  have hleads := ofSymbol?_symbol hop
  rw [h, ofSymbol?_symbol hop'] at hleads
  exact (Option.some.inj hleads).symm

/-- The charge is not taken under the name of a float instruction. -/
theorem symbol_ne_useGas {op : SoftFloat.Operator} (hop : op ∈ all) :
    op.symbol ≠ Metering.useGas := by
  have htable : ∀ op ∈ all, op.symbol ≠ Metering.useGas := by decide +kernel
  exact htable op hop

theorem numericSignature?_opcode {op : SoftFloat.Operator} (hop : op ∈ all) :
    numericSignature? op.opcode = some op.signature := by
  have htable : ∀ op ∈ all, numericSignature? op.opcode = some op.signature := by decide +kernel
  exact htable op hop

end MeteredWasm.SoftFloat.Operator

/-! ## §2 Lookups in the catalog -/

namespace MeteredWasm.Intrinsic

theorem find?_eq_some {namespace_ name : String} {i : Intrinsic}
    (h : find? namespace_ name = some i) : i.namespace_ = namespace_ ∧ i.name = name := by
  have hfound := List.find?_some h
  rw [Bool.and_eq_true, beq_iff_eq, beq_iff_eq] at hfound
  exact hfound

/-- The intrinsics of the injected namespace: the charge, and one for each float instruction. -/
theorem catalog_injected :
    (catalog.filter fun i => i.namespace_ == Metering.injectedNamespace) =
      .action .useGas :: SoftFloat.Operator.all.map .float := by
  decide +kernel

theorem find?_injected (name : String) :
    find? Metering.injectedNamespace name =
      (.action .useGas :: SoftFloat.Operator.all.map .float).find? fun i => i.name == name := by
  rw [← catalog_injected, List.find?_filter]
  simp only [find?, Bool.decide_and, Bool.decide_eq_true]

theorem find?_useGas :
    find? Metering.injectedNamespace Metering.useGas = some (.action .useGas) := by
  rw [find?_injected]
  exact List.find?_cons_of_pos (beq_self_eq_true _)

theorem find?_float {op : SoftFloat.Operator} (hop : op ∈ SoftFloat.Operator.all) :
    find? Metering.injectedNamespace op.symbol = some (.float op) := by
  rw [find?_injected, List.find?_cons_of_neg, List.find?_map]
  · exact congrArg (Option.map Intrinsic.float) (SoftFloat.Operator.ofSymbol?_symbol hop)
  · -- the charge has a name of its own
    rw [beq_iff_eq]
    exact Ne.symm (SoftFloat.Operator.symbol_ne_useGas hop)

end MeteredWasm.Intrinsic
