import MeteredWasm.Proofs.Intrinsic.Linking
import MeteredWasm.Proofs.Sandbox.Caching
import MeteredWasm.Proofs.Sandbox.History

/-!
# The namespaces of what runs

Building a module links everything that it imports, whoever imports it. So what is built may import
from the namespace of the injected functions by itself, and it is a valid contract just when it does
not: nothing on the way to a run makes this check.
-/

namespace MeteredWasm

open Wasm (Import Module Signature)

variable {σ Inst : Type}

/-- The types of imported functions are those of the module, whatever types were added. -/
theorem type_of_import {code : List UInt8} {m : Module} (h : Module.decode code = .ok m)
    {i : Import} (hi : i ∈ m.imports) {type : Nat} (hkind : i.kind = .function type) :
    ∃ s, m.types[type]? = some s := by
  obtain ⟨functions, hwell⟩ := Wasm.decode_wellTyped h
  have hall := Wasm.Layout.signatures_eq_ok.mp hwell.signatures
  have htype : type ∈ m.outline.allFunctionTypes := by
    refine List.mem_append_left _ (List.mem_filterMap.mpr ⟨i, hi, ?_⟩)
    rw [Import.functionType?, hkind]
  obtain ⟨s, -, hs⟩ := exists_mem_right hall htype
  exact ⟨s, hs⟩

/-- What a module imports links when the instrumented module does. -/
theorem links_of_instrumented {code : List UInt8} {maxPages : Nat} {out : Metering.Instrumented}
    (h : Metering.instrument code maxPages = .ok out) {intrinsics : List Intrinsic}
    (hlink : Visibility.everything.link out.module = .ok intrinsics) :
    ∃ m contract, Module.decode code = .ok m ∧
      List.Forall₂ (fun i intrinsic => i ∈ m.imports ∧
        Visibility.everything.linkImport m.types i = .ok intrinsic) m.imports contract := by
  obtain ⟨m, image, hdecode, hmetered⟩ := Metering.instrument_metered h
  obtain ⟨front, rest, added, himports, -, -, hrest⟩ := hmetered.imports
  -- everything that links is a function, so the imports of the module are there unchanged
  have hsame : m.imports = rest := by
    apply Metering.eq_of_withoutMaximum _ hrest.symm
    intro i hi
    apply Visibility.functions_of_link hlink
    rw [himports]
    exact List.mem_append_right front hi
  have hall := Visibility.link_eq_ok.mp hlink
  rw [himports] at hall
  have hcontract := List.forall₂_drop front.length hall
  rw [List.drop_left, ← hsame] at hcontract
  refine ⟨m, intrinsics.drop front.length, hdecode, ?_⟩
  have hmem := (@List.forall₂_and_left _ _ _ (· ∈ m.imports) _ _).mpr ⟨fun _ hi => hi, hcontract⟩
  refine hmem.imp ?_
  rintro i intrinsic ⟨hi, hlinked⟩
  -- it has linked with the types of the instrumented module, of which those of the module are first
  obtain ⟨hsees, hfound, type, hkind, htype⟩ := Visibility.linkImport_eq_ok.mp hlinked
  obtain ⟨s, hs⟩ := type_of_import hdecode hi hkind
  have htype' := getElem?_of_prefix hmetered.types hs
  obtain rfl := Option.some.inj (htype'.symm.trans htype)
  exact ⟨hi, Visibility.linkImport_eq_ok.mpr ⟨hsees, hfound, type, hkind, hs⟩⟩

/-- What is built imports from the two namespaces only, and it is a valid contract just when it
imports nothing from that of the injected functions. -/
theorem build_validates_iff {engine : Engine σ Inst} {maxPages : Nat} {code : List UInt8} {s : σ}
    {l : Loaded Inst} (h : (Loaded.build engine maxPages code s).1 = .ok l) :
    ∃ m, Module.decode code = .ok m ∧
      (∀ i ∈ m.imports, i.namespace_ = Intrinsic.contractNamespace ∨
        i.namespace_ = Metering.injectedNamespace) ∧
      (validate code = .ok () ↔ ∀ i ∈ m.imports, i.namespace_ ≠ Metering.injectedNamespace) := by
  obtain ⟨out, intrinsics, _, hout, hlink, -⟩ := Loaded.build_eq_ok h
  obtain ⟨m, contract, hdecode, hall⟩ := links_of_instrumented hout hlink
  have hsees : ∀ i ∈ m.imports, i.namespace_ = Intrinsic.contractNamespace ∨
      i.namespace_ = Metering.injectedNamespace := by
    intro i hi
    obtain ⟨intrinsic, -, -, hlinked⟩ := exists_mem_right hall hi
    simpa [Visibility.sees] using (Visibility.linkImport_eq_ok.mp hlinked).1
  refine ⟨m, hdecode, hsees, ?_, ?_⟩
  · -- a contract does not see the namespace, so no import from it would have linked
    intro hvalid i hi hinjected
    obtain ⟨m', intrinsics', hdecode', hlink'⟩ := validate_eq_ok.mp hvalid
    obtain rfl := Except.ok.inj (hdecode.symm.trans hdecode')
    obtain ⟨intrinsic, -, hlinked⟩ := exists_mem_right (Visibility.link_eq_ok.mp hlink') hi
    have hseen := (Visibility.linkImport_eq_ok.mp hlinked).1
    rw [hinjected] at hseen
    revert hseen
    decide
  · -- what has linked links again, as it is all from the namespace that a contract sees
    intro hnone
    refine validate_eq_ok.mpr ⟨m, contract, hdecode, Visibility.link_eq_ok.mpr (hall.imp ?_)⟩
    rintro i intrinsic ⟨hi, hlinked⟩
    obtain ⟨-, hfound, hsignature⟩ := Visibility.linkImport_eq_ok.mp hlinked
    have hcontract := (hsees i hi).resolve_right (hnone i hi)
    refine Visibility.linkImport_eq_ok.mpr ⟨?_, hfound, hsignature⟩
    rw [hcontract]
    decide

namespace Request

/-- A module that imports the function that takes the charges. -/
def chargingContract : List UInt8 :=
  [0x00, 0x61, 0x73, 0x6D, 0x01, 0x00, 0x00, 0x00, 0x01, 0x05, 0x01, 0x60, 0x01, 0x7E, 0x00, 0x02,
   0x1B, 0x01, 0x0F, 0x65, 0x6F, 0x73, 0x69, 0x6F, 0x5F, 0x69, 0x6E, 0x6A, 0x65, 0x63, 0x74, 0x69,
   0x6F, 0x6E, 0x07, 0x75, 0x73, 0x65, 0x5F, 0x67, 0x61, 0x73, 0x00, 0x00, 0x03, 0x02, 0x01, 0x00,
   0x07, 0x09, 0x01, 0x05, 0x61, 0x70, 0x70, 0x6C, 0x79, 0x00, 0x01, 0x0A, 0x04, 0x01, 0x02, 0x00,
   0x0B]

/-- Every function calls the last import of its module. -/
def lastCaller : Machine (List Intrinsic) where
  instantiate _ imports := .ok imports
  invoke imports _ _ view :=
    match imports.getLast? with
    | some i => .call view i [.i64 5] fun outcome view => .done view outcome
    | none => .done view (.ok none)

/-- The module is built, and what it imports makes it no valid contract. -/
theorem build_validates_iff_chargingContract :
    ∃ l, (Loaded.build (lastCaller.engine .plain) 528 chargingContract (0 : Nat)).1 = .ok l ∧
      ∃ m, Module.decode chargingContract = .ok m ∧
        (∀ i ∈ m.imports, i.namespace_ = Intrinsic.contractNamespace ∨
          i.namespace_ = Metering.injectedNamespace) ∧
        (validate chargingContract = .ok () ↔
          ∀ i ∈ m.imports, i.namespace_ ≠ Metering.injectedNamespace) := by
  have hpages : Loaded.maxPages <$>
      (Loaded.build (lastCaller.engine .plain) 528 chargingContract (0 : Nat)).1 = .ok 0 := by
    decide +kernel
  obtain ⟨l, hbuilt, -⟩ := Except.map_eq_ok.mp hpages
  exact ⟨l, hbuilt, build_validates_iff hbuilt⟩

/-- It runs all the same, and calls the function that takes the charges with an amount of its own
choice. -/
theorem chargingContract_runs :
    validate chargingContract =
        .error (.unresolvedImport Metering.injectedNamespace Metering.useGas) ∧
      (∃ view, .called view (.action .useGas) [.i64 5] ∈
        (relayed chargingContract).events lastCaller (.fresh {})) ∧
      ((relayed chargingContract).run lastCaller (.fresh {})).1.status = 0 ∧
      ((relayed chargingContract).run lastCaller (.fresh {})).1.gas = 245 := by
  refine ⟨by decide +kernel, ?_, by decide +kernel, by decide +kernel⟩
  have hcalled : ((relayed chargingContract).events lastCaller (.fresh {})).any (fun
      | .called _ i args => i = .action .useGas ∧ args = [.i64 5]
      | _ => false) = true := by
    decide +kernel
  obtain ⟨event, hevent, hcalls⟩ := List.any_eq_true.mp hcalled
  cases event with
  | called view i args =>
    obtain ⟨rfl, rfl⟩ := of_decide_eq_true hcalls
    exact ⟨view, hevent⟩
  | _ => cases hcalls

end Request

end MeteredWasm
