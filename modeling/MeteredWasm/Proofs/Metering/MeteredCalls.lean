import MeteredWasm.Proofs.Contract.CallPaths
import MeteredWasm.Proofs.Metering.GasExactness
import MeteredWasm.Proofs.Metering.Typing

/-!
# Calls of metered bodies

What the calls of a metered module lead to. The image of a call leads to the image of what the call
led to, also through the table; the calls that stand for float instructions and those of the charges
lead to injected imports, which return. No call is a boundary, and every call has a price.
-/

namespace MeteredWasm.Metering

open Wasm (Callee Function Import Instr Label Module Operator Position Signature)

/-! ## §1 Calls and their images -/

theorem flow_of_isCall {i : Instr} (h : i.isCall = true) : i.flow = .next := by
  unfold Instr.isCall at h
  unfold Instr.flow
  split at h
  · rename_i target hop
    rw [hop]
    rfl
  · rename_i type hop
    rw [hop]
    rfl
  · cases h

/-- Behind a call, control goes on right after it. -/
theorem successors_of_isCall {i : Instr} (h : i.isCall = true) (rest : List Instr)
    (labels : List Label) : Position.successors ⟨i :: rest, labels⟩ = [⟨rest, labels⟩] := by
  simp only [Position.successors, flow_of_isCall h]

/-- A call is no boundary. -/
theorem Follows.not_boundary {image : Instr → Instr} {i : Instr} (h : Follows image i)
    (hcall : i.isCall = true) : isBoundary i.opcode = false := by
  rw [h.boundary, flow_of_isCall hcall]
  rfl

/-- Every call has a price. -/
theorem two_le_price_of_isCall {i : Instr} {meaning : Operator} (hi : i.Spelled meaning)
    (hcall : i.isCall = true) : 2 ≤ Gas.price i.opcode := by
  rw [Instr.isCall, hi.operator?] at hcall
  -- only two opcodes spell a call
  obtain ⟨v, hspells⟩ := hi.opcode_spells
  generalize i.opcode = opcode at hspells
  split at hcall
  · rename_i target hop
    cases hop
    cases hspells
    decide
  · rename_i type hop
    cases hop
    cases hspells
    decide
  · cases hcall

/-- What is replaced by something else than a call is not replaced at all, and is no call. -/
theorem Replaces.of_not_isCall {m' : Module} {k : Nat} {i j : Instr} (h : Replaces m' k i j)
    (hcall : j.isCall = false) : j = i ∧ i.isCall = false := by
  cases h with
  | call target => cases hcall
  | float => cases hcall
  | other hother => exact ⟨rfl, hcall⟩

/-! ## §2 Callees -/

/-- A metered function. -/
def meterFunction (image : Instr → Instr) (f : Function) : Function :=
  { f with body := meter image 0 f.body }

/-- What stands in a metered module behind an index, in place of what stood there. -/
def meterCallee (image : Instr → Instr) : Callee → Callee
  | .host i => .host i
  | .defined f => .defined (meterFunction image f)

variable {m m' : Module} {k : Nat} {image : Instr → Instr} {functions : List Signature}

/-- The callees of a metered module: the injected imports, and behind them those of the module. -/
theorem Metered.callees (h : Metered m k image m') :
    ∃ front : List Import, front.length = k ∧
      (∀ index < k, m'.imports[index]? = front[index]?) ∧
      m'.callees = front.map .host ++ m.callees.map (meterCallee image) := by
  obtain ⟨front, rest, added, himports, hlength, hadded, hrest⟩ := h.imports
  -- what is injected are functions, so each takes an index
  have hfront : front.filterMap Import.callee? = front.map .host := by
    rw [← List.filterMap_eq_map]
    apply List.filterMap_congr
    intro i hi
    obtain ⟨s, -, type, hkind, -⟩ := exists_mem_right hadded hi
    simp only [Import.callee?, Import.functionType?, hkind, Option.map_some, Function.comp_apply]
  have hhosts : (m.imports.filterMap Import.callee?).map (meterCallee image) =
      m.imports.filterMap Import.callee? := by
    rw [List.map_filterMap]
    congr 1
    funext i
    unfold Import.callee?
    cases i.functionType? with
    | none => rfl
    | some type => rfl
  refine ⟨front, hlength, ?_, ?_⟩
  · intro index hindex
    rw [himports, List.getElem?_append_left (by omega)]
  · rw [Module.callees, Module.callees, himports, List.filterMap_append, hfront,
      filterMap_of_withoutMaximum (fun _ _ _ => rfl) hrest, h.functions, List.map_append, hhosts,
      List.map_map, List.map_map, List.append_assoc]
    rfl

theorem Metered.callee_front (h : Metered m k image m') {index : Nat} (hindex : index < k)
    {import_ : Import} (himport : m'.imports[index]? = some import_) :
    m'.callees[index]? = some (.host import_) := by
  obtain ⟨front, hlength, hfront, hcallees⟩ := h.callees
  rw [hfront index hindex] at himport
  rw [hcallees, List.getElem?_append_left (by rw [List.length_map]; omega), List.getElem?_map,
    himport, Option.map_some]

theorem Metered.callee_behind (h : Metered m k image m') {target : Nat} {callee' : Callee}
    (hcallee : m'.callees[target + k]? = some callee') :
    ∃ callee, m.callees[target]? = some callee ∧ callee' = meterCallee image callee := by
  obtain ⟨front, hlength, -, hcallees⟩ := h.callees
  rw [hcallees, List.getElem?_append_right (by rw [List.length_map]; omega), List.length_map,
    hlength, Nat.add_sub_cancel, List.getElem?_map] at hcallee
  obtain ⟨callee, hfound, rfl⟩ := Option.map_eq_some_iff.mp hcallee
  exact ⟨callee, hfound, rfl⟩

/-- Among the injected functions, nothing is defined. -/
theorem Metered.host_of_front (h : Metered m k image m') {index : Nat} (hindex : index < k)
    {callee : Callee} (hcallee : m'.callees[index]? = some callee) :
    ∃ import_, callee = .host import_ := by
  obtain ⟨front, hlength, -, hcallees⟩ := h.callees
  rw [hcallees, List.getElem?_append_left (by rw [List.length_map]; omega), List.getElem?_map]
    at hcallee
  obtain ⟨import_, -, rfl⟩ := Option.map_eq_some_iff.mp hcallee
  exact ⟨import_, rfl⟩

/-- What can be called through the table of a metered module is the image of what could be called
through it before: no element leads to an injected function. -/
theorem Metered.reached_behind (h : Metered m k image m') {index : Nat} {callee' : Callee}
    (hcallee : m'.callees[index]? = some callee')
    (hreached : (∃ f, callee' = .defined f) ∨ ∃ e ∈ m'.elements, index ∈ e.functions) :
    ∃ target callee, index = target + k ∧ m.callees[target]? = some callee ∧
      callee' = meterCallee image callee ∧
      ((∃ f, callee = .defined f) ∨ ∃ e ∈ m.elements, target ∈ e.functions) := by
  rcases hreached with ⟨f', rfl⟩ | ⟨e', he', hmem⟩
  · -- a defined function stands behind all imported ones
    have hbehind : k ≤ index := by
      by_contra hlt
      obtain ⟨import_, hhost⟩ := h.host_of_front (by omega) hcallee
      cases hhost
    obtain ⟨target, rfl⟩ := Nat.exists_eq_add_of_le' hbehind
    obtain ⟨callee, hfound, hsame⟩ := h.callee_behind hcallee
    refine ⟨target, callee, rfl, hfound, hsame, .inl ?_⟩
    cases callee with
    | host import_ => cases hsame
    | defined f => exact ⟨f, rfl⟩
  · -- an element was moved as a whole, past the injected functions
    rw [h.elements] at he'
    obtain ⟨e, he, rfl⟩ := List.mem_map.mp he'
    obtain ⟨target, htarget, rfl⟩ := List.mem_map.mp hmem
    obtain ⟨callee, hfound, hsame⟩ := h.callee_behind hcallee
    exact ⟨target, callee, rfl, hfound, hsame, .inr ⟨e, he, htarget⟩⟩

theorem signature?_of_signatures (h : m.outline.signatures = .ok functions) (index : Nat) :
    m.signature? index = functions[index]? := by
  have hall := Wasm.Layout.signatures_eq_ok.mp h
  rw [show m.outline.allFunctionTypes = m.functionTypes from rfl] at hall
  unfold Module.signature?
  by_cases hlt : index < functions.length
  · have hlt' : index < m.functionTypes.length := hall.length_eq ▸ hlt
    rw [List.getElem?_eq_getElem hlt', List.getElem?_eq_getElem hlt, Option.bind_some]
    exact hall.get hlt' hlt
  · rw [List.getElem?_eq_none (by rw [hall.length_eq]; omega), List.getElem?_eq_none (by omega)]
    rfl

/-- Behind the injected functions, each function keeps its signature. -/
theorem Metered.signature?_behind (h : Metered m k image m') (hwell : m.WellTyped functions)
    (index : Nat) : m'.signature? (index + k) = m.signature? index := by
  obtain ⟨added, hlength, hsignatures, -⟩ := h.signatures hwell
  rw [signature?_of_signatures hsignatures, signature?_of_signatures hwell.signatures,
    List.getElem?_append_right (by omega), hlength, Nat.add_sub_cancel]

theorem exits_of_injected (name : String) (kind : Wasm.ImportKind) :
    Import.exits ⟨injectedNamespace, name, kind⟩ = false := by
  have hnot : (injectedNamespace == Intrinsic.contractNamespace) = false := by decide
  rw [Import.exits, hnot]
  rfl

/-! ## §3 What a call leads to -/

/-- A type that a body calls through the table is one of its module. -/
theorem type_of_callIndirect (hwell : m.WellTyped functions) {f : Function} (hf : f ∈ m.functions)
    {i : Instr} (hi : i ∈ f.body) {type : Nat} (hop : i.operator? = some (.callIndirect type)) :
    ∃ s, m.types[type]? = some s := by
  obtain ⟨s, -, code, hcode, hcheck⟩ := hwell.bodies f hf
  obtain ⟨op, hmem, hmeaning⟩ := exists_mem_right (mapM_eq_some.mp hcode) hi
  obtain rfl := Option.some.inj (hop.symm.trans hmeaning)
  obtain ⟨before, after, hcall⟩ := Wasm.Check.run_mem (Wasm.checkBody_eq_ok.mp hcheck) hmem
  -- the check looks for a table first, then for the type
  obtain ⟨_, _, -, hcall⟩ := Run.bind_eq_ok.mp hcall
  obtain ⟨s, _, hfound, -⟩ := Run.bind_eq_ok.mp hcall
  obtain ⟨htype, -⟩ := Wasm.Check.found_eq_ok.mp hfound
  refine ⟨s, ?_⟩
  rw [← htype]
  exact (List.getElem?_toArray).symm

/-- What the image of an instruction calls is the image of what the instruction calls. Only the
image of a float instruction calls something although the instruction calls nothing, and that never
exits. -/
theorem Metered.calls_image (h : Metered m k image m') (hwell : m.WellTyped functions)
    {f : Function} (hf : f ∈ m.functions) {i : Instr} (hi : i ∈ f.body) {callee' : Callee}
    (hcalls : m'.Calls (image i) callee') :
    (∃ callee, m.Calls i callee ∧ callee' = meterCallee image callee) ∨
      (i.isCall = false ∧ ∃ import_, callee' = .host import_ ∧ import_.exits = false) := by
  have hreplaces := h.replaces f hf i hi
  generalize hj : image i = j at hreplaces hcalls
  cases hreplaces with
  | call target =>
    left
    cases hcalls with
    | direct hcallee =>
      obtain ⟨callee, hfound, hsame⟩ := h.callee_behind hcallee
      exact ⟨callee, .direct hfound, hsame⟩
    | indirect hop => cases hop
  | @float op index type hop _ hindex himport _ =>
    right
    refine ⟨?_, ?_⟩
    · -- the instruction is numeric
      obtain ⟨meaning, hspelled⟩ := (h.spelled f hf).meaning _ hi
      have hfloat : floatOperator? (.raw [op.opcode]) = some op :=
        SoftFloat.Operator.ofOpcode?_opcode hop
      obtain ⟨-, -, rfl⟩ := eq_raw_of_floatOperator? hspelled hfloat
      rw [Instr.isCall, hspelled.operator?]
    · cases hcalls with
      | direct hcallee =>
        rw [h.callee_front hindex himport] at hcallee
        obtain rfl := Option.some.inj hcallee
        exact ⟨_, rfl, exits_of_injected _ _⟩
      | indirect hop => cases hop
  | other hother =>
    left
    cases hcalls with
    | indirect hop htype hsignature hcallee hreached =>
      -- the type is the same one, since the types that were added stand behind it
      obtain ⟨s', hs'⟩ := type_of_callIndirect hwell hf hi hop
      have htype' := getElem?_of_prefix h.types hs'
      obtain rfl := Option.some.inj (htype.symm.trans htype')
      obtain ⟨target, callee, rfl, hfound, hsame, hreached⟩ := h.reached_behind hcallee hreached
      rw [h.signature?_behind hwell] at hsignature
      exact ⟨callee, .indirect hop hs' hsignature hfound hreached, hsame⟩

/-- The calls of a charge lead to the import that takes it, and that does not exit. -/
theorem Metered.calls_charge (h : Metered m k image m') {pending : Nat} {i j : Instr}
    (hcost : pending + Gas.price i.opcode < 2 ^ 63) (hj : j ∈ chargeFor pending i)
    {callee : Callee} (hcalls : m'.Calls j callee) :
    ∃ import_, callee = .host import_ ∧ import_.exits = false := by
  obtain ⟨type, hcharge, -⟩ := h.charge
  rcases eq_of_mem_chargeFor hj with rfl | rfl
  · -- a constant is no call
    have hcall := hcalls.isCall
    rw [Instr.isCall, (constI64_spelled hcost).operator?] at hcall
    cases hcall
  · cases hcalls with
    | direct hcallee =>
      rw [h.callee_front h.injected hcharge] at hcallee
      obtain rfl := Option.some.inj hcallee
      exact ⟨_, rfl, exits_of_injected _ _⟩
    | indirect hop => cases hop

end MeteredWasm.Metering
