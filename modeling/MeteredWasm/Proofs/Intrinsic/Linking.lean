import MeteredWasm.Proofs.Metering.IndexSpace
import MeteredWasm.Sandbox.Running

/-!
# Linking before and after instrumentation

What linking a module establishes, and that it agrees across instrumentation: a contract that is
valid still links once it is instrumented, to the intrinsics that were injected, in the order in
which they were first needed, and behind them to the ones that it links to itself.
-/

namespace MeteredWasm

open Wasm (Import Module Signature)

/-! ## §1 What linking establishes -/

/-- An import asks for an intrinsic, by its namespace, its name and its signature. -/
structure AsksFor (types : List Signature) (i : Import) (intrinsic : Intrinsic) : Prop where
  namespace_ : i.namespace_ = intrinsic.namespace_
  name : i.name = intrinsic.name
  signature : ∃ type, i.kind = .function type ∧ types[type]? = some intrinsic.signature

namespace Visibility

variable {v : Visibility}

/-- An import links to what it asks for, if its namespace can be seen. -/
theorem linkImport_eq_ok {types : List Signature} {i : Import} {intrinsic : Intrinsic} :
    v.linkImport types i = .ok intrinsic ↔
      v.sees i.namespace_ = true ∧ Intrinsic.find? i.namespace_ i.name = some intrinsic ∧
        ∃ type, i.kind = .function type ∧ types[type]? = some intrinsic.signature := by
  unfold linkImport
  cases hkind : i.kind with
  | function type =>
    cases htype : types[type]? with
    | none => simp [htype]
    | some declared =>
      simp only [resolve, Wasm.ImportKind.function.injEq, exists_eq_left', htype,
        Option.some.injEq]
      cases hsees : v.sees i.namespace_ with
      | false => simp
      | true =>
        cases hfound : Intrinsic.find? i.namespace_ i.name with
        | none => simp
        | some found =>
          simp only [if_true, Option.some.injEq, true_and]
          split_ifs with hsignature
          · rw [Except.ok.injEq]
            constructor
            · rintro rfl
              exact ⟨rfl, hsignature.symm⟩
            · exact fun h => h.1
          · constructor
            · intro h
              cases h
            · rintro ⟨rfl, hsame⟩
              exact absurd hsame.symm hsignature
  | _ => simp

theorem link_eq_ok {m : Module} {intrinsics : List Intrinsic} :
    v.link m = .ok intrinsics ↔
      List.Forall₂ (fun i intrinsic => v.linkImport m.types i = .ok intrinsic) m.imports
        intrinsics :=
  mapM_eq_ok

theorem asksFor_of_linkImport {types : List Signature} {i : Import} {intrinsic : Intrinsic}
    (h : v.linkImport types i = .ok intrinsic) : AsksFor types i intrinsic := by
  obtain ⟨-, hfound, hsignature⟩ := linkImport_eq_ok.mp h
  obtain ⟨hnamespace, hname⟩ := Intrinsic.find?_eq_some hfound
  exact ⟨hnamespace.symm, hname.symm, hsignature⟩

/-- What a module links to is what its imports ask for, one by one. -/
theorem asksFor_of_link {m : Module} {intrinsics : List Intrinsic}
    (h : v.link m = .ok intrinsics) : List.Forall₂ (AsksFor m.types) m.imports intrinsics :=
  (link_eq_ok.mp h).imp fun _ _ => asksFor_of_linkImport

/-- What links imports functions only. -/
theorem functions_of_link {m : Module} {intrinsics : List Intrinsic}
    (h : v.link m = .ok intrinsics) {i : Import} (hi : i ∈ m.imports) :
    ∃ type, i.kind = .function type := by
  obtain ⟨intrinsic, -, hlinked⟩ := exists_mem_right (link_eq_ok.mp h) hi
  obtain ⟨-, -, type, hkind, -⟩ := linkImport_eq_ok.mp hlinked
  exact ⟨type, hkind⟩

/-- What a contract may import can be imported in general, also when types were added. -/
theorem linkImport_mono {types types' : List Signature} (htypes : types <+: types') {i : Import}
    {intrinsic : Intrinsic} (h : contractOnly.linkImport types i = .ok intrinsic) :
    everything.linkImport types' i = .ok intrinsic := by
  obtain ⟨hsees, hfound, type, hkind, htype⟩ := linkImport_eq_ok.mp h
  refine linkImport_eq_ok.mpr ⟨?_, hfound, type, hkind, getElem?_of_prefix htypes htype⟩
  have hcontract : (i.namespace_ == Intrinsic.contractNamespace) = true := by
    simpa [sees] using hsees
  rw [sees, hcontract, Bool.true_or]

end Visibility

theorem validate_eq_ok {code : List UInt8} :
    validate code = .ok () ↔
      ∃ m intrinsics, Module.decode code = .ok m ∧
        Visibility.contractOnly.link m = .ok intrinsics := by
  unfold validate
  simp only [Except.bind_eq_ok]
  constructor
  · rintro ⟨m, hdecode, intrinsics, hlink, -⟩
    exact ⟨m, intrinsics, hdecode, hlink⟩
  · rintro ⟨m, intrinsics, hdecode, hlink⟩
    exact ⟨m, hdecode, intrinsics, hlink, rfl⟩

namespace Metering

/-! ## §2 What is injected -/

/-- The intrinsics that are injected into a module: the charge, and what its float instructions
need, each at its first use. -/
def injectedIntrinsics (m : Module) : List Intrinsic :=
  .action .useGas :: (floatOperators m).eraseDups.map .float

theorem mem_all_of_mem_floatOperators {m : Module} {op : SoftFloat.Operator}
    (h : op ∈ floatOperators m) : op ∈ SoftFloat.Operator.all := by
  obtain ⟨f, -, hf⟩ := List.mem_flatMap.mp h
  obtain ⟨i, -, hi⟩ := List.mem_filterMap.mp hf
  exact SoftFloat.Operator.ofOpcode?_mem hi

/-- Requests under different names are registered once each, in order, behind what is there. -/
theorem foldl_register_map {α : Type} [BEq α] [LawfulBEq α] {base : String × Signature}
    {entry : α → String × Signature} {as : List α} (hbase : ∀ a ∈ as, (entry a).1 ≠ base.1)
    (hnames : ∀ a ∈ as, ∀ b ∈ as, (entry a).1 = (entry b).1 → a = b) :
    (as.map entry).foldl register [base] = base :: as.eraseDups.map entry := by
  induction as using List.reverseRecOn with
  | nil => rfl
  | append_singleton as a ih =>
    have hearlier : ∀ b ∈ as, b ∈ as ++ [a] := fun b hb => List.mem_append_left _ hb
    have hlast : a ∈ as ++ [a] := List.mem_append_right _ (List.mem_singleton_self a)
    rw [List.map_append, List.foldl_append, List.eraseDups_append,
      ih (fun b hb => hbase b (hearlier b hb))
        fun b hb c hc => hnames b (hearlier b hb) c (hearlier c hc)]
    simp only [List.map_cons, List.map_nil, List.foldl_cons, List.foldl_nil, register]
    -- its name is there already just when it was requested before
    have hmem : (entry a).1 ∈ base.1 :: (as.eraseDups.map entry).map Prod.fst ↔ a ∈ as := by
      rw [List.mem_cons, List.map_map, List.mem_map]
      constructor
      · rintro (hsame | ⟨b, hb, hsame⟩)
        · exact absurd hsame (hbase a hlast)
        · rw [List.mem_eraseDups] at hb
          exact hnames b (hearlier b hb) a hlast hsame ▸ hb
      · exact fun ha => .inr ⟨a, List.mem_eraseDups.mpr ha, rfl⟩
    by_cases hknown : a ∈ as
    · rw [if_pos (hmem.mpr hknown)]
      simp [List.removeAll, hknown]
    · rw [if_neg fun h => hknown (hmem.mp h)]
      simp [List.removeAll, hknown, List.eraseDups_cons]

theorem filterMap_chargeRuns (charge pending : Nat) (code : List Wasm.Instr) :
    (chargeRuns charge pending code).filterMap floatOperator? = code.filterMap floatOperator? := by
  induction code generalizing pending with
  | nil => rfl
  | cons i rest ih =>
    have hpush : ∀ amount, floatOperator? (.constI64 amount) = none := fun amount => rfl
    have htake : floatOperator? (.call charge) = none := rfl
    rw [chargeRuns]
    split_ifs
    · rw [List.filterMap_cons_none (hpush _), List.filterMap_cons_none htake, List.filterMap_cons,
        List.filterMap_cons, ih]
    · rw [List.filterMap_cons, List.filterMap_cons, ih]

/-- Charges need no float operations. -/
theorem floatOperators_chargedModule (m : Module) :
    floatOperators (chargedModule m) = floatOperators m := by
  rw [floatOperators, floatOperators, chargedModule, (chargeModule_injects m).2, List.flatMap_map]
  congr 1
  funext f
  exact filterMap_chargeRuns _ _ _

/-- What is injected are the imports of those intrinsics. -/
theorem injectedFor_chargedModule (m : Module) :
    injectedFor (chargedModule m) =
      (injectedIntrinsics m).map fun i => (i.name, i.signature) := by
  have hregistered := @foldl_register_map SoftFloat.Operator _ _ (useGas, useGasSignature)
    (fun op => (op.symbol, op.signature)) (floatOperators m)
    (fun op hop => SoftFloat.Operator.symbol_ne_useGas (mem_all_of_mem_floatOperators hop))
    (fun op hop op' hop' => SoftFloat.Operator.symbol_inj (mem_all_of_mem_floatOperators hop)
      (mem_all_of_mem_floatOperators hop'))
  rw [injectedFor, floatRequests, floatOperators_chargedModule, hregistered, injectedIntrinsics,
    List.map_cons, List.map_map]
  rfl

/-- An import that was injected for an intrinsic links to it. -/
theorem linkImport_of_provides {types : List Signature} {m : Module} {intrinsic : Intrinsic}
    (h : intrinsic ∈ injectedIntrinsics m) {i : Import}
    (hi : Provides types (intrinsic.name, intrinsic.signature) i) :
    Visibility.everything.linkImport types i = .ok intrinsic := by
  obtain ⟨type, rfl, htype⟩ := hi
  have hsees : Visibility.everything.sees injectedNamespace = true := by decide
  refine Visibility.linkImport_eq_ok.mpr ⟨hsees, ?_, type, rfl, htype⟩
  -- the table of intrinsics has everything that can be injected, under the injected namespace
  rcases List.mem_cons.mp h with rfl | hfloat
  · exact Intrinsic.find?_useGas
  · obtain ⟨op, hop, rfl⟩ := List.mem_map.mp hfloat
    exact Intrinsic.find?_float (mem_all_of_mem_floatOperators (List.mem_eraseDups.mp hop))

/-! ## §3 Linking an instrumented contract -/

/-- Imports of functions are determined up to the maximum of a memory. -/
theorem eq_of_withoutMaximum {imports imports' : List Import}
    (hfunctions : ∀ i ∈ imports, ∃ type, i.kind = .function type)
    (h : imports'.map Import.withoutMaximum = imports.map Import.withoutMaximum) :
    imports' = imports := by
  induction imports generalizing imports' with
  | nil => exact List.map_eq_nil_iff.mp h
  | cons i rest ih =>
    cases imports' with
    | nil => cases h
    | cons i' rest' =>
      obtain ⟨hfirst, hrest⟩ := List.cons_eq_cons.mp h
      obtain ⟨type, hkind⟩ := hfunctions i List.mem_cons_self
      rw [ih (fun j hj => hfunctions j (List.mem_cons_of_mem i hj)) hrest]
      obtain ⟨namespace_, name, kind⟩ := i
      obtain ⟨namespace', name', kind'⟩ := i'
      cases hkind
      -- a function is not changed, and nothing else is left as a function
      cases kind' with
      | function | table | global => exact congrArg (· :: rest) hfirst
      | memory => cases hfirst

/-- Validation and instrumentation agree about imports. The instrumented module of a contract that
is valid links to the intrinsics that were injected, and behind them to those that the contract
links to; each import asks for the intrinsic at its place. -/
theorem instrument_links {wasm : List UInt8} {maxPages : Nat} {out : Instrumented}
    (hvalid : validate wasm = .ok ()) (h : instrument wasm maxPages = .ok out) :
    ∃ m contract, Module.decode wasm = .ok m ∧ Visibility.contractOnly.link m = .ok contract ∧
      (injectedIntrinsics m).length = out.injected ∧
      Visibility.everything.link out.module = .ok (injectedIntrinsics m ++ contract) ∧
      List.Forall₂ (AsksFor out.module.types) out.module.imports
        (injectedIntrinsics m ++ contract) := by
  obtain ⟨m, contract, hdecode, hlink⟩ := validate_eq_ok.mp hvalid
  obtain ⟨m', hdecode', hclamp, hmodule, hinjected⟩ := instrument_eq_ok h
  obtain rfl := Except.ok.inj (hdecode.symm.trans hdecode')
  obtain ⟨memory, imports, hclamped, -, himports⟩ := clampMemory_eq_ok hclamp
  have hall := Visibility.link_eq_ok.mp hlink
  -- a contract that links imports functions only, so clamping its memory changes no import
  have hsame : imports = m.imports :=
    eq_of_withoutMaximum (fun _ hi => Visibility.functions_of_link hlink hi) himports
  rw [hclamped] at hmodule hinjected
  have hinjects := instrumentBodies_injects { m with memory := memory, imports := imports }
  rw [← hmodule, injectedFor_chargedModule] at hinjects
  obtain ⟨front, hfront, hprovides⟩ := hinjects.imports
  have hcount : (injectedIntrinsics m).length = out.injected := by
    rw [hinjected, Injection.count, hinjects.names, List.length_map, List.length_map]
    rfl
  have hlinks : Visibility.everything.link out.module =
      .ok (injectedIntrinsics m ++ contract) := by
    rw [Visibility.link_eq_ok, hfront]
    -- the injected imports stand in front, each with the intrinsic that it was registered for
    refine List.rel_append ?_ ?_
    · rw [List.forall₂_map_left_iff] at hprovides
      have hmem := (@List.forall₂_and_left _ _ _ (· ∈ injectedIntrinsics m) _ _).mpr
        ⟨fun _ hi => hi, hprovides⟩
      exact (hmem.imp fun intrinsic i hi => linkImport_of_provides hi.1 hi.2).flip
    · rw [hsame]
      exact hall.imp fun i intrinsic hlinked => Visibility.linkImport_mono hinjects.types hlinked
  exact ⟨m, contract, hdecode, hlink, hcount, hlinks, Visibility.asksFor_of_link hlinks⟩

/-- A contract that imports the exit and multiplies a float between two additions. -/
def floatContract : List UInt8 :=
  [0x00, 0x61, 0x73, 0x6D, 0x01, 0x00, 0x00, 0x00, 0x01, 0x09, 0x02, 0x60, 0x01, 0x7F, 0x00, 0x60,
   0x01, 0x7E, 0x00, 0x02, 0x10, 0x01, 0x03, 0x65, 0x6E, 0x76, 0x08, 0x66, 0x74, 0x6C, 0x5F, 0x65,
   0x78, 0x69, 0x74, 0x00, 0x00, 0x03, 0x02, 0x01, 0x01, 0x07, 0x09, 0x01, 0x05, 0x61, 0x70, 0x70,
   0x6C, 0x79, 0x00, 0x01, 0x0A, 0x12, 0x01, 0x10, 0x01, 0x01, 0x7C, 0x20, 0x01, 0x20, 0x01, 0xA0,
   0x20, 0x01, 0xA2, 0x20, 0x01, 0xA0, 0x1A, 0x0B]

/-- Three functions are injected into it: the charge, the sum and the product. -/
theorem instrument_links_floatContract :
    ∃ out, validate floatContract = .ok () ∧
      instrument floatContract defaultMaxPages = .ok out ∧ out.injected = 3 ∧
      ∃ m contract, Module.decode floatContract = .ok m ∧
        Visibility.contractOnly.link m = .ok contract ∧
        (injectedIntrinsics m).length = out.injected ∧
        Visibility.everything.link out.module = .ok (injectedIntrinsics m ++ contract) ∧
        List.Forall₂ (AsksFor out.module.types) out.module.imports
          (injectedIntrinsics m ++ contract) := by
  have hvalid : validate floatContract = .ok () := by decide +kernel
  have hinjected : Instrumented.injected <$> instrument floatContract defaultMaxPages = .ok 3 := by
    decide +kernel
  cases hout : instrument floatContract defaultMaxPages with
  | error cause =>
    rw [hout] at hinjected
    cases hinjected
  | ok out =>
    rw [hout] at hinjected
    exact ⟨out, hvalid, rfl, Except.ok.inj hinjected, instrument_links hvalid hout⟩

end Metering

end MeteredWasm
