import MeteredWasm.Proofs.Metering.MeteredFlow

/-!
# Metered modules are well typed

Metering keeps every typing. The check of a metered body goes through the frames of the original
check: a charge leaves the frames as they are, wherever it stands, and what replaces an instruction
does to them what the instruction did.
-/

namespace MeteredWasm.Metering

open Wasm (ValueType Signature Import Export ElementSegment Instr Operator Function Module TypeEnv
  Frame Frames Check Limits)

/-! ## §1 Environments with injected functions -/

/-- The second environment knows all that the first one does, with `k` functions in front of the
others, of which the first takes the charge. -/
structure Widens (k : Nat) (env env' : TypeEnv) : Prop where
  types : ∀ {index : Nat} {s : Signature}, env.types[index]? = some s → env'.types[index]? = some s
  functions : ∀ {index : Nat} {s : Signature},
    env.functions[index]? = some s → env'.functions[index + k]? = some s
  charge : env'.functions[0]? = some useGasSignature
  globals : env'.globals = env.globals
  hasTable : env'.hasTable = env.hasTable
  hasMemory : env'.hasMemory = env.hasMemory
  locals : env'.locals = env.locals

/-- What the check sees in place of an instruction. A call that stands for a float instruction calls
a function with the signature of its opcode. -/
inductive StandsFor (env' : TypeEnv) (k : Nat) : Operator → Operator → Prop where
  | call (target : Nat) : StandsFor env' k (.call target) (.call (target + k))
  | float {opcode : UInt8} {index : Nat} {s : Signature} :
      Wasm.numericSignature? opcode = some s → env'.functions[index]? = some s →
      StandsFor env' k (.numeric opcode) (.call index)
  | other {op : Operator} : (∀ target, op ≠ .call target) → StandsFor env' k op op

variable {k : Nat} {env env' : TypeEnv} {frames frames' : Frames}

/-- An instruction that refers to no function is checked in the same way in a wider environment. -/
theorem Widens.operator (h : Widens k env env') {op : Operator} (hop : ∀ target, op ≠ .call target)
    (hrun : (Check.operator env op).run frames = .ok ((), frames')) :
    (Check.operator env' op).run frames = .ok ((), frames') := by
  -- apart from types and functions the environments are the same
  obtain ⟨types, functions, globals, hasTable, hasMemory, locals⟩ := env
  obtain ⟨types', functions', globals', hasTable', hasMemory', locals'⟩ := env'
  obtain rfl : globals' = globals := h.globals
  obtain rfl : hasTable' = hasTable := h.hasTable
  obtain rfl : hasMemory' = hasMemory := h.hasMemory
  obtain rfl : locals' = locals := h.locals
  cases op with
  | call target => exact absurd rfl (hop target)
  -- types are looked up, and those that were there are still there
  | callIndirect type =>
    simp only [Check.operator, Run.bind_eq_ok, Check.found_eq_ok] at hrun ⊢
    obtain ⟨u, between, htable, s, between', ⟨hs, hsame⟩, happly⟩ := hrun
    exact ⟨u, between, htable, s, between', ⟨h.types hs, hsame⟩, happly⟩
  | _ => exact hrun

/-- What stands for an instruction does to the frames what the instruction does. -/
theorem StandsFor.instruction (h : Widens k env env') {op op' : Operator}
    (hop : StandsFor env' k op op')
    (hrun : (Check.instruction env op).run frames = .ok ((), frames')) :
    (Check.instruction env' op').run frames = .ok ((), frames') := by
  rw [Check.instruction_eq_ok] at hrun ⊢
  obtain ⟨hopen, hrun⟩ := hrun
  refine ⟨hopen, ?_⟩
  cases hop with
  | call target =>
    simp only [Check.operator, Run.bind_eq_ok, Check.found_eq_ok] at hrun ⊢
    obtain ⟨s, between, ⟨hs, hsame⟩, happly⟩ := hrun
    exact ⟨s, between, ⟨h.functions hs, hsame⟩, happly⟩
  | float hsignature hfunction =>
    simp only [Check.operator, Run.bind_eq_ok, Check.found_eq_ok] at hrun ⊢
    obtain ⟨s, between, ⟨hs, hsame⟩, happly⟩ := hrun
    obtain rfl := Option.some.inj (hsignature.symm.trans hs)
    exact ⟨_, between, ⟨hfunction, hsame⟩, happly⟩
  | other hother => exact h.operator hother hrun

/-! ## §2 Metered bodies -/

/-- A charge is pushed and taken again, so it leaves open frames as they are. -/
theorem accepts_charge {amount : Nat} (hamount : amount < 2 ^ 63)
    (hcharge : env'.functions[0]? = some useGasSignature) (hopen : frames ≠ []) :
    Check.Accepts env' frames [.constI64 amount, .call 0] frames := by
  cases frames with
  | nil => exact absurd rfl hopen
  | cons f outer =>
    -- the operand stands on top even where the code cannot be reached, so the call finds it
    have hpush : (Check.instruction env' (.const (.i64 (UInt64.ofInt amount)))).run (f :: outer) =
        .ok ((), { f with operands := some .i64 :: f.operands } :: outer) := rfl
    have hcall : (Check.instruction env' (.call 0)).run
        ({ f with operands := some .i64 :: f.operands } :: outer) = .ok ((), f :: outer) := by
      rw [Check.instruction_eq_ok]
      refine ⟨List.cons_ne_nil _ _, ?_⟩
      simp only [Check.operator, Run.bind_eq_ok, Check.found_eq_ok]
      exact ⟨useGasSignature, _, ⟨hcharge, rfl⟩, rfl⟩
    exact .cons (constI64_spelled hamount).operator? hpush (.cons rfl hcall (.nil _))

theorem accepts_chargeFor {pending : Nat} {i : Instr}
    (hcost : pending + Gas.price i.opcode < 2 ^ 63)
    (hcharge : env'.functions[0]? = some useGasSignature) (hopen : frames ≠ []) :
    Check.Accepts env' frames (chargeFor pending i) frames := by
  rcases chargeFor_cases pending i with ⟨-, -, hfor⟩ | ⟨hfor, -, -⟩
  · rw [hfor]
    exact accepts_charge hcost hcharge hopen
  · rw [hfor]
    exact .nil frames

/-- The check goes through metered code as it went through the code. -/
theorem accepts_meter {image : Instr → Instr} {code : List Instr} {pending : Nat}
    (h : Widens k env env') (hfits : Fits pending code)
    (himage : ∀ i ∈ code, ∀ op, i.operator? = some op →
      ∃ op', (image i).operator? = some op' ∧ StandsFor env' k op op')
    (haccepts : Check.Accepts env frames code frames') :
    Check.Accepts env' frames (meter image pending code) frames' := by
  -- along the run of the check; what is pending does not matter to it, as a charge leaves no trace
  induction haccepts generalizing pending with
  | nil frames => exact .nil frames
  | @cons i op rest frames between frames' hop hrun _ ih =>
    obtain ⟨op', hop', hstands⟩ := himage i List.mem_cons_self op hop
    -- the instruction was checked within an open frame, so its charge is as well
    have hopen := (Check.instruction_eq_ok.mp hrun).1
    have hrest := ih hfits.tail fun i' hi' => himage i' (List.mem_cons_of_mem i hi')
    have hfor := accepts_chargeFor hfits.cost h.charge hopen
    rw [meter]
    exact hfor.append (.cons hop' (hstands.instruction h hrun) hrest)

/-! ## §3 Index spaces -/

variable {m m' : Module} {image : Instr → Instr} {front : List Import}
  {added functions : List Signature}

theorem ImportsFunction.unique {i : Import} {s s' : Signature} (h : ImportsFunction m' i s)
    (h' : ImportsFunction m' i s') : s = s' := by
  obtain ⟨type, hkind, hs⟩ := h
  obtain ⟨type', hkind', hs'⟩ := h'
  obtain rfl := Wasm.ImportKind.function.inj (hkind.symm.trans hkind')
  exact Option.some.inj (hs.symm.trans hs')

/-- The signature of each injected function stands at the place of its import. -/
def Resolves (m' : Module) (k : Nat) (functions : List Signature) : Prop :=
  ∀ {index : Nat} {i : Import} {s : Signature}, index < k → m'.imports[index]? = some i →
    ImportsFunction m' i s → functions[index]? = some s

/-- Injected imports are functions, under types that resolve to their signatures. -/
theorem functionTypes_of_importsFunction (h : List.Forall₂ (ImportsFunction m') front added) :
    List.Forall₂ (fun type s => m'.types[type]? = some s) (front.filterMap Import.functionType?)
      added := by
  induction h with
  | nil => exact .nil
  | @cons i s front added hi _ ih =>
    obtain ⟨type, hkind, htype⟩ := hi
    have hfunction : i.functionType? = some type := by
      rw [Import.functionType?, hkind]
    rw [List.filterMap_cons_some hfunction]
    exact .cons htype ih

/-- What neither looks for functions nor at the maximum of a memory finds the same in the imports of
a metered module. -/
theorem Metered.filterMap_imports (h : Metered m k image m') {α : Type} {find : Import → Option α}
    (hfunction : ∀ namespace_ name type, find ⟨namespace_, name, .function type⟩ = none)
    (hmemory : ∀ namespace_ name l, find ⟨namespace_, name, .memory l.withoutMaximum⟩ =
      find ⟨namespace_, name, .memory l⟩) :
    m'.imports.filterMap find = m.imports.filterMap find := by
  obtain ⟨front, rest, added, himports, -, hadded, hrest⟩ := h.imports
  have hnone : front.filterMap find = [] := by
    rw [List.filterMap_eq_nil_iff]
    rintro ⟨namespace_, name, kind⟩ hi
    obtain ⟨s, -, type, rfl, -⟩ := exists_mem_right hadded hi
    exact hfunction namespace_ name type
  rw [himports, List.filterMap_append, hnone, List.nil_append,
    filterMap_of_withoutMaximum hmemory hrest]

/-- The signatures of a metered module: those of the injected functions, each where its import is,
and behind them those of the module. -/
theorem Metered.signatures (h : Metered m k image m') (hwell : m.WellTyped functions) :
    ∃ added, added.length = k ∧ m'.outline.signatures = .ok (added ++ functions) ∧
      Resolves m' k (added ++ functions) := by
  obtain ⟨front, rest, added, himports, hlength, hadded, hrest⟩ := h.imports
  have hcount : added.length = k := hadded.length_eq.symm.trans hlength
  refine ⟨added, hcount, ?_, ?_⟩
  · have hdefined : m'.functions.map Function.type = m.functions.map Function.type := by
      rw [h.functions, List.map_map]
      rfl
    have himported : rest.filterMap Import.functionType? =
        m.imports.filterMap Import.functionType? :=
      filterMap_of_withoutMaximum (fun _ _ _ => rfl) hrest
    have hall : m'.outline.allFunctionTypes =
        front.filterMap Import.functionType? ++ m.outline.allFunctionTypes := by
      show m'.imports.filterMap _ ++ m'.functions.map _ =
        _ ++ (m.imports.filterMap _ ++ m.functions.map _)
      rw [himports, List.filterMap_append, hdefined, himported, List.append_assoc]
    rw [Wasm.Layout.signatures_eq_ok, hall]
    refine List.rel_append (functionTypes_of_importsFunction hadded) ?_
    exact (Wasm.Layout.signatures_eq_ok.mp hwell.signatures).imp fun type s hs =>
      getElem?_of_prefix h.types hs
  · intro index i s hindex hi hs
    -- the signature at a place among the injected ones is that of the import there
    have hfront : index < front.length := by omega
    have hplace : index < added.length := by omega
    rw [himports, List.getElem?_append_left hfront, List.getElem?_eq_getElem hfront] at hi
    obtain rfl := Option.some.inj hi
    have hsame := hadded.get hfront hplace
    rw [List.getElem?_append_left hplace, List.getElem?_eq_getElem hplace]
    exact congrArg some (hsame.unique hs)

theorem Metered.allGlobals (h : Metered m k image m') :
    m'.outline.allGlobals = m.outline.allGlobals := by
  have himported : m'.outline.importedGlobals = m.outline.importedGlobals :=
    h.filterMap_imports (fun _ _ _ => rfl) (fun _ _ _ => rfl)
  rw [Wasm.Layout.allGlobals, Wasm.Layout.allGlobals, himported]
  show _ ++ m'.globals.map _ = _ ++ m.globals.map _
  rw [h.globals]

theorem Metered.allTables (h : Metered m k image m') :
    m'.outline.allTables = m.outline.allTables := by
  show m'.imports.filterMap _ ++ m'.table.toList = m.imports.filterMap _ ++ m.table.toList
  rw [h.table]
  congr 1
  exact h.filterMap_imports (fun _ _ _ => rfl) (fun _ _ _ => rfl)

theorem Metered.allMemories (h : Metered m k image m') :
    m'.outline.allMemories.map Limits.withoutMaximum =
      m.outline.allMemories.map Limits.withoutMaximum := by
  show (m'.imports.filterMap _ ++ m'.memory.toList).map _ =
    (m.imports.filterMap _ ++ m.memory.toList).map _
  rw [List.map_append, List.map_append, ← Option.toList_map, ← Option.toList_map, h.memory,
    List.map_filterMap, List.map_filterMap]
  congr 1
  exact h.filterMap_imports (fun _ _ _ => rfl) (fun _ _ _ => rfl)

/-! ## §4 Metered modules -/

/-- What a function may refer to once the module is metered. -/
theorem Metered.widens (h : Metered m k image m') (hlength : added.length = k)
    (hadded : Resolves m' k (added ++ functions)) (f : Function) (s : Signature) :
    Widens k (f.typeEnv (m.outline.typeEnv functions) s)
      (f.typeEnv (m'.outline.typeEnv (added ++ functions)) s) where
  types := by
    intro index s hs
    have hfound := getElem?_of_prefix h.types (List.getElem?_toArray.symm.trans hs)
    exact List.getElem?_toArray.trans hfound
  functions := by
    intro index s hs
    have hfound : functions[index]? = some s := List.getElem?_toArray.symm.trans hs
    show (added ++ functions).toArray[index + k]? = some s
    rw [List.getElem?_toArray, List.getElem?_append_right (by omega), hlength, Nat.add_sub_cancel,
      hfound]
  charge := by
    obtain ⟨type, himport, htype⟩ := h.charge
    exact List.getElem?_toArray.trans (hadded h.injected himport ⟨type, rfl, htype⟩)
  globals := congrArg List.toArray h.allGlobals
  hasTable := by
    show (!m'.outline.allTables.isEmpty) = !m.outline.allTables.isEmpty
    rw [h.allTables]
  hasMemory := by
    have hsame := congrArg List.isEmpty h.allMemories
    rw [List.isEmpty_map, List.isEmpty_map] at hsame
    exact congrArg not hsame
  locals := rfl

/-- A replacement stands for the instruction in the check. -/
theorem Replaces.standsFor {i j : Instr} {op : Operator} (h : Replaces m' k i j)
    (hi : i.Spelled op) (hfunctions : Resolves m' k functions)
    (henv : env'.functions = functions.toArray) :
    ∃ op', j.operator? = some op' ∧ StandsFor env' k op op' := by
  have hmeaning := hi.operator?
  cases h with
  | call target =>
    obtain rfl : Operator.call target = op := Option.some.inj hmeaning
    exact ⟨_, rfl, .call target⟩
  | @float float index type hfloat _ hlt himport htype =>
    have hsignature := SoftFloat.Operator.numericSignature?_opcode hfloat
    have hspelled : (Instr.raw [float.opcode]).Spelled (.numeric float.opcode) :=
      ⟨float.opcode, [], .numeric hsignature, rfl⟩
    obtain rfl := Option.some.inj (hspelled.operator?.symm.trans hmeaning)
    have hfunction := hfunctions hlt himport ⟨type, rfl, htype⟩
    refine ⟨_, rfl, .float hsignature ?_⟩
    rw [henv, List.getElem?_toArray]
    exact hfunction
  | other =>
    refine ⟨op, hmeaning, .other ?_⟩
    obtain ⟨v, target, hcall, -⟩ | ⟨b, v, -, hother, -⟩ := hi.cases
    · cases hcall
    · exact hother

/-- Every function keeps its type, and its body is checked as before, in the wider environment. -/
theorem Metered.bodies_wellTyped (h : Metered m k image m') (hwell : m.WellTyped functions)
    (hlength : added.length = k) (hadded : Resolves m' k (added ++ functions)) {f' : Function}
    (hf' : f' ∈ m'.functions) :
    ∃ s, m'.types[f'.type]? = some s ∧
      f'.WellTyped (m'.outline.typeEnv (added ++ functions)) s := by
  rw [h.functions] at hf'
  obtain ⟨f, hf, rfl⟩ := List.mem_map.mp hf'
  obtain ⟨s, hs, htyped⟩ := hwell.bodies f hf
  have hwidens := h.widens hlength hadded f s
  refine ⟨s, getElem?_of_prefix h.types hs, ?_⟩
  rw [Function.wellTyped_iff] at htyped ⊢
  apply accepts_meter hwidens (h.fits hf) _ htyped
  intro i hi op hop
  obtain ⟨meaning, hspelled⟩ := (h.spelled f hf).meaning i hi
  obtain rfl := Option.some.inj (hspelled.operator?.symm.trans hop)
  exact (h.replaces f hf i hi).standsFor hspelled hadded rfl

/-- A metered module is well typed when the module is. -/
theorem Metered.wellTyped (h : Metered m k image m') (hwell : m.WellTyped functions) :
    ∃ functions', m'.WellTyped functions' := by
  obtain ⟨added, hlength, hsignatures, hadded⟩ := h.signatures hwell
  have hbodies := fun f' => @Metered.bodies_wellTyped k m m' image added functions h hwell hlength
    hadded f'
  have hmoved : ∀ {index : Nat}, index < functions.length →
      index + k < (added ++ functions).length := by
    intro index hindex
    rw [List.length_append]
    omega
  refine ⟨added ++ functions, ?_⟩
  refine
    { signatures := hsignatures
      exports := ?_
      start := ?_
      elements := ?_
      calls := fun f hf target htarget => Module.calls_of_bodies hbodies hf htarget
      bodies := hbodies }
  · intro e' he' hkind
    rw [h.exports] at he'
    obtain ⟨⟨name, kind, index⟩, he, rfl⟩ := List.mem_map.mp he'
    cases kind with
    | function => exact hmoved (hwell.exports _ he rfl)
    | _ => cases hkind
  · intro index' hindex'
    rw [h.start] at hindex'
    obtain ⟨index, hindex, rfl⟩ := Option.map_eq_some_iff.mp hindex'
    rw [List.getElem?_append_right (by omega), hlength, Nat.add_sub_cancel]
    exact hwell.start index hindex
  · intro s' hs' index' hindex'
    rw [h.elements] at hs'
    obtain ⟨s, hs, rfl⟩ := List.mem_map.mp hs'
    obtain ⟨index, hindex, rfl⟩ := List.mem_map.mp hindex'
    exact hmoved (hwell.elements s hs index hindex)

/-- Instrumentation keeps modules well typed. -/
theorem instrument_wellTyped {wasm : List UInt8} {maxPages : Nat} {out : Instrumented}
    (h : instrument wasm maxPages = .ok out) :
    ∃ functions, out.module.WellTyped functions := by
  obtain ⟨m, image, hdecode, hmetered⟩ := instrument_metered h
  obtain ⟨functions, hwell⟩ := Wasm.decode_wellTyped hdecode
  exact hmetered.wellTyped hwell

theorem instrument_wellTyped_sample :
    ∃ out, instrument sampleContract defaultMaxPages = .ok out ∧ out.injected = 2 ∧
      ∃ functions, out.module.WellTyped functions := by
  obtain ⟨out, hout, hinjected⟩ := sampleContract_instruments
  exact ⟨out, hout, hinjected, instrument_wellTyped hout⟩

end MeteredWasm.Metering
