import MeteredWasm.Proofs.Metering.FloatPass
import MeteredWasm.Proofs.Wasm.WellTyped

/-!
# The outcome of instrumentation

What an instrumented module is in terms of the module that was decoded, so that nothing below has to
follow the passes: the bodies with their runs charged and each instruction replaced, and around them
the same module with all function indices moved.
-/

namespace MeteredWasm.Wasm

/-! ## §1 Limits without their maximum -/

def Limits.withoutMaximum (l : Limits) : Limits :=
  { l with maximum := none }

/-- An import, up to the maximum of a memory. -/
def Import.withoutMaximum (i : Import) : Import :=
  match i.kind with
  | .memory l => { i with kind := .memory l.withoutMaximum }
  | _ => i

/-- A module, up to the maximum of its memory. -/
def Module.withoutMaximum (m : Module) : Module :=
  { m with
    imports := m.imports.map Import.withoutMaximum
    memory := m.memory.map Limits.withoutMaximum }

end MeteredWasm.Wasm

namespace MeteredWasm.Metering

open Wasm (Signature Import Instr Function Module)

/-! ## §2 Instructions and their replacements -/

/-- The charge in front of an instruction, given what is pending. -/
def chargeFor (pending : Nat) (i : Instr) : List Instr :=
  let cost := pending + Gas.price i.opcode
  if isBoundary i.opcode ∧ 0 < cost then [.constI64 cost, .call 0] else []

/-- What is pending behind an instruction. -/
def pendingAfter (pending : Nat) (i : Instr) : Nat :=
  if isBoundary i.opcode then 0 else pending + Gas.price i.opcode

/-- A body with its runs charged and each instruction replaced by its image. -/
def meter (image : Instr → Instr) : (pending : Nat) → List Instr → List Instr
  | _, [] => []
  | pending, i :: rest =>
    chargeFor pending i ++ image i :: meter image (pendingAfter pending i) rest

/-- Either a boundary is charged for, or nothing is due that would not stay pending. -/
theorem chargeFor_cases (pending : Nat) (i : Instr) :
    (isBoundary i.opcode = true ∧ pendingAfter pending i = 0 ∧
        chargeFor pending i =
          [.constI64 ((pending + Gas.price i.opcode : Nat) : Int), .call 0]) ∨
      (chargeFor pending i = [] ∧ pendingAfter pending i = pending + Gas.price i.opcode ∧
        (isBoundary i.opcode = true → pending + Gas.price i.opcode = 0)) := by
  by_cases hboundary : isBoundary i.opcode = true
  · have hafter : pendingAfter pending i = 0 := if_pos hboundary
    by_cases hcost : 0 < pending + Gas.price i.opcode
    · exact .inl ⟨hboundary, hafter, if_pos ⟨hboundary, hcost⟩⟩
    · have hzero : pending + Gas.price i.opcode = 0 := by omega
      have hfor : chargeFor pending i = [] := if_neg fun hcharged => hcost hcharged.2
      exact .inr ⟨hfor, hafter.trans hzero.symm, fun _ => hzero⟩
  · have hafter : pendingAfter pending i = pending + Gas.price i.opcode := if_neg hboundary
    have hfor : chargeFor pending i = [] := if_neg fun hcharged => hboundary hcharged.1
    exact .inr ⟨hfor, hafter, fun h => absurd h hboundary⟩

theorem eq_of_mem_chargeFor {pending : Nat} {i j : Instr} (hj : j ∈ chargeFor pending i) :
    j = .constI64 ((pending + Gas.price i.opcode : Nat) : Int) ∨ j = .call 0 := by
  rcases chargeFor_cases pending i with ⟨-, -, hfor⟩ | ⟨hfor, -, -⟩
  · rw [hfor] at hj
    simpa using hj
  · rw [hfor] at hj
    cases hj

theorem map_chargeRuns {image : Instr → Instr} {charge : Nat}
    (hcharge : image (.call charge) = .call 0)
    (hconst : ∀ amount, image (.constI64 amount) = .constI64 amount) (pending : Nat)
    (code : List Instr) :
    (chargeRuns charge pending code).map image = meter image pending code := by
  induction code generalizing pending with
  | nil => rfl
  | cons i rest ih =>
    rw [meter, ← ih]
    rcases chargeFor_cases pending i with ⟨hboundary, hafter, hfor⟩ | ⟨hfor, hafter, hfree⟩
    · rw [hfor, hafter, chargeRuns]
      split_ifs with hcharged
      · simp only [List.map_cons, hcharge, hconst, List.cons_append, List.nil_append]
      · -- the charge is there, so something was due
        have hnone : chargeFor pending i = [] := by
          unfold chargeFor
          exact if_neg hcharged
        rw [hnone] at hfor
        cases hfor
    · rw [hfor, hafter, chargeRuns, List.nil_append]
      rw [if_neg, List.map_cons]
      intro hcharged
      have hzero := hfree hcharged.1
      omega

/-- What stands in the instrumented module in place of an instruction: for a call the same call with
its index moved, for a float instruction a call to what computes it, and else the instruction. -/
inductive Replaces (m' : Module) (k : Nat) : Instr → Instr → Prop where
  | call (target : Nat) : Replaces m' k (.call target) (.call (target + k))
  | float {op : SoftFloat.Operator} {index type : Nat} :
      op ∈ SoftFloat.Operator.all → 1 ≤ index → index < k →
      m'.imports[index]? = some ⟨injectedNamespace, op.symbol, .function type⟩ →
      m'.types[type]? = some op.signature → Replaces m' k (.raw [op.opcode]) (.call index)
  | other {bytes : List UInt8} :
      floatOperator? (.raw bytes) = none → Replaces m' k (.raw bytes) (.raw bytes)

/-- An import of a function with the given signature. -/
def ImportsFunction (m' : Module) (i : Import) (s : Signature) : Prop :=
  ∃ type, i.kind = .function type ∧ m'.types[type]? = some s

/-- The second module is the first with its runs charged and its instructions replaced, behind `k`
injected imports. -/
structure Metered (m : Module) (k : Nat) (image : Instr → Instr) (m' : Module) : Prop where
  spelled : ∀ f ∈ m.functions, f.Spelled
  functions : m'.functions = m.functions.map fun f => { f with body := meter image 0 f.body }
  replaces : ∀ f ∈ m.functions, ∀ i ∈ f.body, Replaces m' k i (image i)
  types : m.types <+: m'.types
  imports : ∃ front rest added, m'.imports = front ++ rest ∧ front.length = k ∧
    List.Forall₂ (ImportsFunction m') front added ∧
    rest.map Import.withoutMaximum = m.imports.map Import.withoutMaximum
  charge : ∃ type, m'.imports[0]? = some ⟨injectedNamespace, useGas, .function type⟩ ∧
    m'.types[type]? = some useGasSignature
  injected : 1 ≤ k
  exports : m'.exports = m.exports.map (moveExport k)
  start : m'.start = m.start.map (· + k)
  elements : m'.elements = m.elements.map (moveElements k)
  table : m'.table = m.table
  memory : m'.memory.map Wasm.Limits.withoutMaximum = m.memory.map Wasm.Limits.withoutMaximum
  globals : m'.globals = m.globals
  data : m'.data = m.data

/-! ## §3 Clamping -/

theorem clampLimits_eq_ok {ceiling : Nat} {l l' : Wasm.Limits}
    (h : clampLimits ceiling l = .ok l') : l'.withoutMaximum = l.withoutMaximum := by
  unfold clampLimits at h
  split_ifs at h
  cases h
  rfl

theorem clampImport_eq_ok {ceiling : Nat} {i i' : Import} (h : clampImport ceiling i = .ok i') :
    i'.withoutMaximum = i.withoutMaximum := by
  unfold clampImport at h
  split at h
  · rename_i l hkind
    obtain ⟨l', hl', hi'⟩ := Except.bind_eq_ok.mp h
    cases hi'
    simp only [Import.withoutMaximum, hkind, clampLimits_eq_ok hl']
  · cases h
    rfl

theorem clampImports_eq_ok {ceiling : Nat} {imports : List Import}
    (h : (clampImports ceiling imports).1 = .ok ()) :
    (clampImports ceiling imports).2.map Import.withoutMaximum =
      imports.map Import.withoutMaximum := by
  induction imports with
  | nil => rfl
  | cons i rest ih =>
    unfold clampImports at h ⊢
    split at h
    · cases h
    · rename_i i' hi'
      simp only [List.map_cons, clampImport_eq_ok hi', ih h]

/-- Clamping that succeeds only touches the maximum of the memory. -/
theorem clampMemory_eq_ok {ceiling : Nat} {m : Module} (h : (clampMemory ceiling m).1 = .ok ()) :
    ∃ memory imports, (clampMemory ceiling m).2 = { m with memory := memory, imports := imports } ∧
      memory.map Wasm.Limits.withoutMaximum = m.memory.map Wasm.Limits.withoutMaximum ∧
      imports.map Import.withoutMaximum = m.imports.map Import.withoutMaximum := by
  unfold clampMemory at h ⊢
  split at h
  · cases h
  · rename_i memory hmemory
    refine ⟨memory, (clampImports ceiling m.imports).2, ?_, ?_, clampImports_eq_ok h⟩
    · rfl
    · cases hold : m.memory with
      | none =>
        rw [hold] at hmemory
        cases hmemory
        rfl
      | some l =>
        rw [hold] at hmemory
        obtain ⟨l', hl', hsome⟩ := Except.bind_eq_ok.mp hmemory
        cases hsome
        simp only [Option.map_some, clampLimits_eq_ok hl']

/-! ## §4 Float instructions -/

/-- What decides about an item of a body that is a float instruction: it is its opcode alone. -/
theorem eq_raw_of_floatOperator? {i : Instr} {meaning : Wasm.Operator} {op : SoftFloat.Operator}
    (hi : i.Spelled meaning) (hfloat : floatOperator? i = some op) :
    op ∈ SoftFloat.Operator.all ∧ i = .raw [op.opcode] ∧ meaning = .numeric op.opcode := by
  have hop := SoftFloat.Operator.ofOpcode?_mem hfloat
  have hopcode : op.opcode = i.opcode := SoftFloat.Operator.opcode_of_ofOpcode? hfloat
  have hsignature := SoftFloat.Operator.numericSignature?_opcode hop
  -- the opcode of a call has no signature, and an opcode that has one stands alone
  obtain ⟨v, target, rfl, rfl, -⟩ | ⟨b, v, rfl, -, hspells⟩ := hi.cases
  · rw [hopcode] at hsignature
    cases hsignature
  · obtain rfl : op.opcode = b := hopcode
    obtain ⟨rfl, rfl⟩ := hspells.eq_numeric hsignature
    exact ⟨hop, rfl, rfl⟩

/-- Charging keeps every instruction. -/
theorem mem_chargeRuns {charge pending : Nat} {code : List Instr} {i : Instr} (hi : i ∈ code) :
    i ∈ chargeRuns charge pending code := by
  induction code generalizing pending with
  | nil => cases hi
  | cons first rest ih =>
    rw [chargeRuns]
    rcases List.mem_cons.mp hi with rfl | hrest
    · split_ifs <;> simp
    · split_ifs
      · exact List.mem_cons_of_mem _ (List.mem_cons_of_mem _ (List.mem_cons_of_mem _ (ih hrest)))
      · exact List.mem_cons_of_mem _ (ih hrest)

/-- The requests that float instructions make. -/
def floatRequests (m : Module) : List (String × Signature) :=
  (floatOperators m).map fun op => (op.symbol, op.signature)

theorem foldl_addOperator (state : Injection × Module) (m : Module) :
    (floatOperators m).foldl addOperator state = addAll state (floatRequests m) := by
  rw [addAll, floatRequests, List.foldl_map]
  rfl

/-- What is injected into a module: the charge, and behind it what its float instructions need. -/
def injectedFor (m : Module) : List (String × Signature) :=
  (floatRequests m).foldl register [(useGas, useGasSignature)]

theorem injectedFor_eq_cons (m : Module) :
    ∃ rest, injectedFor m = (useGas, useGasSignature) :: rest := by
  obtain ⟨rest, hrest⟩ := prefix_foldl_register [(useGas, useGasSignature)] (floatRequests m)
  exact ⟨rest, hrest.symm⟩

/-- Under the name of a float instruction stands a function with its signature. -/
theorem signature_of_injectedFor {m : Module} {entry : String × Signature}
    {op : SoftFloat.Operator} (hop : op ∈ SoftFloat.Operator.all) (hentry : entry ∈ injectedFor m)
    (hname : entry.1 = op.symbol) : entry.2 = op.signature := by
  rcases mem_foldl_register hentry with hcharge | hrequest
  · rw [List.mem_singleton] at hcharge
    rw [hcharge] at hname
    exact absurd hname.symm (SoftFloat.Operator.symbol_ne_useGas hop)
  · obtain ⟨op', hop', rfl⟩ := List.mem_map.mp hrequest
    obtain ⟨f, -, hf⟩ := List.mem_flatMap.mp hop'
    obtain ⟨i, -, hi⟩ := List.mem_filterMap.mp hf
    have hop'' := SoftFloat.Operator.ofOpcode?_mem hi
    rw [SoftFloat.Operator.symbol_inj hop'' hop hname]

/-- The function under the name of a float instruction is not the one that takes the charge. -/
theorem place_of_injectedFor {m : Module} {entry : String × Signature} {op : SoftFloat.Operator}
    (hop : op ∈ SoftFloat.Operator.all) {index : Nat}
    (hentry : (injectedFor m)[index]? = some entry) (hname : entry.1 = op.symbol) :
    1 ≤ index := by
  obtain ⟨rest, hrest⟩ := injectedFor_eq_cons m
  rw [Nat.one_le_iff_ne_zero]
  rintro rfl
  rw [hrest] at hentry
  cases hentry
  exact SoftFloat.Operator.symbol_ne_useGas hop hname.symm

/-! ## §5 The passes -/

theorem chargeModule_injects (m : Module) :
    Injects m [(useGas, useGasSignature)] (chargeModule (Injection.start m) m).1
        (chargeModule (Injection.start m) m).2 ∧
      (chargeModule (Injection.start m) m).2.functions =
        m.functions.map (chargeFunction m.functionCount) := by
  have hadd := (injects_start m).add useGas useGasSignature
  have hfunctions := add_functions (Injection.start m) m useGas useGasSignature
  refine ⟨hadd.with_functions _, ?_⟩
  have hlogical : ((Injection.start m).add m useGas useGasSignature).1.logical useGas =
      m.functionCount := by
    rw [Injection.logical, hadd.names, hadd.base]
    simp [register]
  show ((Injection.start m).add m useGas useGasSignature).2.functions.map
    (chargeFunction (((Injection.start m).add m useGas useGasSignature).1.logical useGas)) = _
  rw [hfunctions, hlogical]

theorem callFloats_injects {m m' : Module} {added : List (String × Signature)} {s : Injection}
    (h : Injects m added s m') :
    Injects m ((floatRequests m').foldl register added) (callFloats s m').1 (callFloats s m').2 ∧
      (callFloats s m').2.functions =
        m'.functions.map fun f =>
          { f with body := f.body.map (callOperator (callFloats s m').1) } := by
  have hadd := h.addAll (floatRequests m')
  have hfunctions := addAll_functions (s, m') (floatRequests m')
  unfold callFloats
  rw [foldl_addOperator]
  refine ⟨hadd.with_functions _, ?_⟩
  show List.map _ _ = _
  rw [hfunctions]

/-- The final form of an instruction: a float instruction is called, and calls have their final
targets. -/
def finish (s : Injection) (i : Instr) : Instr :=
  s.remapInstr (callOperator s i)

/-- The import that was registered at a place, and its signature. -/
theorem Injects.import_at {m m' : Module} {added : List (String × Signature)} {s : Injection}
    (h : Injects m added s m') {index : Nat} {entry : String × Signature}
    (hentry : added[index]? = some entry) :
    ∃ type, m'.imports[index]? = some ⟨injectedNamespace, entry.1, .function type⟩ ∧
      m'.types[type]? = some entry.2 := by
  obtain ⟨front, himports, hfront⟩ := h.imports
  obtain ⟨hadded, hsame⟩ := List.getElem?_eq_some_iff.mp hentry
  have hlt : index < front.length := by
    rw [← hfront.length_eq]
    exact hadded
  obtain ⟨type, hi, htype⟩ := hfront.get hadded hlt
  rw [List.get_eq_getElem, List.get_eq_getElem, hsame] at hi
  rw [List.get_eq_getElem, hsame] at htype
  refine ⟨type, ?_, htype⟩
  rw [himports, List.getElem?_append_left hlt, List.getElem?_eq_getElem hlt, hi]

/-- Under a name that was registered stands an entry with this name. -/
theorem Injects.entry_at {m m' : Module} {added : List (String × Signature)} {s : Injection}
    (h : Injects m added s m') {name : String} (hname : name ∈ s.names) :
    ∃ entry, added[s.names.idxOf name]? = some entry ∧ entry.1 = name := by
  have hlt : s.names.idxOf name < s.names.length := List.idxOf_lt_length_of_mem hname
  have hplace : s.names[s.names.idxOf name] = name := List.getElem_idxOf hlt
  have hget := List.getElem?_eq_getElem hlt
  rw [hplace] at hget
  simp only [h.names, List.getElem?_map, Option.map_eq_some_iff] at hget ⊢
  exact hget

/-- When everything that a module needs was injected, the final form of each of its instructions is
a replacement of it. -/
theorem finish_replaces {m m' source : Module} {s : Injection}
    (h : Injects m (injectedFor source) s m') {i : Instr} {meaning : Wasm.Operator}
    (hi : i.Spelled meaning) (htarget : ∀ target, i = .call target → target < m.functionCount)
    (hfloat : ∀ op, floatOperator? i = some op → op ∈ floatOperators source) :
    Replaces m' s.count i (finish s i) := by
  cases hop : floatOperator? i with
  | some op =>
    obtain ⟨hall, rfl, -⟩ := eq_raw_of_floatOperator? hi hop
    have hrequest : (op.symbol, op.signature) ∈ floatRequests source :=
      List.mem_map.mpr ⟨op, hfloat op hop, rfl⟩
    have hname : op.symbol ∈ s.names := by
      rw [h.names]
      exact name_mem_foldl_register hrequest
    -- the name leads to an import, which has the signature of the instruction
    obtain ⟨entry, hentry, hentryName⟩ := h.entry_at hname
    have hpositive := place_of_injectedFor hall hentry hentryName
    have hsignature := signature_of_injectedFor hall (List.mem_of_getElem? hentry) hentryName
    obtain ⟨type, himport, htype⟩ := h.import_at hentry
    rw [hentryName] at himport
    rw [hsignature] at htype
    have hfinish : finish s (.raw [op.opcode]) = .call (s.names.idxOf op.symbol) := by
      rw [finish, callOperator, hop]
      exact congrArg Instr.call (remap_logical hname)
    rw [hfinish]
    exact .float hall hpositive (List.idxOf_lt_length_of_mem hname) himport htype
  | none =>
    have hkept : callOperator s i = i := by
      rw [callOperator, hop]
    rw [finish, hkept]
    cases i with
    | call target =>
      have hmoved : s.remap target = target + s.count :=
        remap_original (h.base ▸ htarget target rfl)
      rw [Injection.remapInstr, hmoved]
      exact .call target
    | raw bytes => exact .other hop

/-! ## §6 The whole -/

/-- The call that charging adds becomes a call of the first function. -/
theorem finish_charge {m m' source : Module} {s : Injection}
    (h : Injects m (injectedFor source) s m') :
    1 ≤ s.count ∧ finish s (.call m.functionCount) = .call 0 := by
  obtain ⟨rest, hrest⟩ := injectedFor_eq_cons source
  have hnames := h.names
  rw [hrest] at hnames
  have hmem : useGas ∈ s.names := by
    rw [hnames]
    exact List.mem_cons_self
  have hfirst : s.names.idxOf useGas = 0 := by
    rw [hnames]
    exact List.idxOf_cons_self
  have hlogical : s.logical useGas = m.functionCount := by
    rw [Injection.logical, hfirst, h.base, Nat.add_zero]
  refine ⟨List.length_pos_of_mem hmem, ?_⟩
  have hremap := remap_logical hmem
  rw [hlogical, hfirst] at hremap
  exact congrArg Instr.call hremap

/-- The module whose float instructions are collected: the charges are in its bodies already. -/
def chargedModule (m : Module) : Module :=
  (chargeModule (Injection.start m) m).2

theorem instrumentBodies_injects (m : Module) :
    Injects m (injectedFor (chargedModule m)) (instrumentBodies m).1 (instrumentBodies m).2 :=
  (callFloats_injects (chargeModule_injects m).1).1.with_functions _

/-- The bodies have their runs charged and each instruction in its final form. -/
theorem instrumentBodies_functions (m : Module) :
    (instrumentBodies m).2.functions = m.functions.map fun f =>
      { f with body := meter (finish (instrumentBodies m).1) 0 f.body } := by
  obtain ⟨hcharged, hcharges⟩ := chargeModule_injects m
  have hfloats := (callFloats_injects hcharged).2
  have hcharge := (finish_charge (instrumentBodies_injects m)).2
  -- replacing and moving are one map over the charged bodies
  have hmap : (instrumentBodies m).2.functions =
      (m.functions.map (chargeFunction m.functionCount)).map fun f =>
        { f with body := f.body.map (finish (instrumentBodies m).1) } := by
    have hremapped : (instrumentBodies m).2.functions =
        (callFloats (chargeModule (Injection.start m) m).1 (chargedModule m)).2.functions.map
          fun f => { f with body := f.body.map (instrumentBodies m).1.remapInstr } := rfl
    rw [hremapped, chargedModule, hfloats, hcharges, List.map_map]
    refine List.map_congr_left fun f _ => ?_
    simp only [Function.comp_apply, List.map_map]
    rfl
  rw [hmap, List.map_map]
  refine List.map_congr_left fun f _ => ?_
  -- the charges come out as the calls of the first function, since that is their final target
  have hruns := map_chargeRuns hcharge (fun amount => rfl) 0 f.body
  simp only [Function.comp_apply, chargeFunction, hruns]

theorem instrumentBodies_metered {m : Module} (hspelled : ∀ f ∈ m.functions, f.Spelled)
    (hcalls : ∀ f ∈ m.functions, ∀ target, .call target ∈ f.body → target < m.functionCount) :
    Metered m (instrumentBodies m).1.count (finish (instrumentBodies m).1)
      (instrumentBodies m).2 := by
  have hall := instrumentBodies_injects m
  obtain ⟨front, himports, hfront⟩ := hall.imports
  obtain ⟨rest, hrest⟩ := injectedFor_eq_cons (chargedModule m)
  have hfirst : (injectedFor (chargedModule m))[0]? = some (useGas, useGasSignature) := by
    rw [hrest]
    rfl
  have hlength : front.length = (instrumentBodies m).1.count := by
    rw [← hfront.length_eq, Injection.count, hall.names, List.length_map]
  have hsignatures : List.Forall₂ (ImportsFunction (instrumentBodies m).2) front
      ((injectedFor (chargedModule m)).map Prod.snd) := by
    rw [List.forall₂_map_right_iff]
    refine hfront.flip.imp ?_
    rintro i added ⟨type, rfl, htype⟩
    exact ⟨type, rfl, htype⟩
  refine
    { spelled := hspelled
      functions := instrumentBodies_functions m
      replaces := ?_
      types := hall.types
      imports := ⟨front, m.imports, _, himports, hlength, hsignatures, rfl⟩
      charge := hall.import_at hfirst
      injected := (finish_charge hall).1
      exports := hall.exports
      start := hall.start
      elements := hall.elements
      table := hall.table
      memory := congrArg _ hall.memory
      globals := hall.globals
      data := hall.data }
  intro f hf i hi
  obtain ⟨meaning, hmeaning⟩ := (hspelled f hf).meaning i hi
  apply finish_replaces hall hmeaning
  · rintro target rfl
    exact hcalls f hf target hi
  · -- the instruction is still there when the float instructions are collected
    intro op hop
    apply List.mem_flatMap.mpr
    refine ⟨chargeFunction m.functionCount f, ?_, ?_⟩
    · rw [chargedModule, (chargeModule_injects m).2]
      exact List.mem_map_of_mem hf
    · exact List.mem_filterMap.mpr ⟨i, mem_chargeRuns hi, hop⟩

/-- What does not look at the maximum of a memory finds the same in imports that agree up to it. -/
theorem filterMap_of_withoutMaximum {α : Type} {find : Import → Option α}
    (hmemory : ∀ namespace_ name l, find ⟨namespace_, name, .memory l.withoutMaximum⟩ =
      find ⟨namespace_, name, .memory l⟩) {imports imports' : List Import}
    (h : imports'.map Import.withoutMaximum = imports.map Import.withoutMaximum) :
    imports'.filterMap find = imports.filterMap find := by
  have hsame : find ∘ Import.withoutMaximum = find := by
    funext i
    obtain ⟨namespace_, name, kind⟩ := i
    cases kind with
    | memory l => exact hmemory namespace_ name l
    | _ => rfl
  rw [← hsame, ← List.filterMap_map, h, List.filterMap_map]

theorem instrument_eq_ok {wasm : List UInt8} {maxPages : Nat} {out : Instrumented}
    (h : instrument wasm maxPages = .ok out) :
    ∃ m, Module.decode wasm = .ok m ∧ (clampMemory maxPages m).1 = .ok () ∧
      out.module = (instrumentBodies (clampMemory maxPages m).2).2 ∧
      out.injected = (instrumentBodies (clampMemory maxPages m).2).1.count := by
  rw [instrument_eq] at h
  obtain ⟨m, hdecode, h⟩ := Except.bind_eq_ok.mp h
  obtain ⟨_, hclamp, h⟩ := Except.bind_eq_ok.mp h
  obtain ⟨image, -, h⟩ := Except.bind_eq_ok.mp h
  cases h
  exact ⟨m, hdecode, hclamp, rfl, rfl⟩

/-- Instrumentation meters the module that the bytes encode. -/
theorem instrument_metered {wasm : List UInt8} {maxPages : Nat} {out : Instrumented}
    (h : instrument wasm maxPages = .ok out) :
    ∃ m image, Module.decode wasm = .ok m ∧ Metered m out.injected image out.module := by
  obtain ⟨m, hdecode, hclamp, hmodule, hinjected⟩ := instrument_eq_ok h
  obtain ⟨memory, imports, hclamped, hmemory, himports⟩ := clampMemory_eq_ok hclamp
  obtain ⟨functions, hwell⟩ := Wasm.decode_wellTyped hdecode
  rw [hclamped] at hmodule hinjected
  -- clamping the memory changes no import of a function, so calls stay in range
  have htypes : imports.filterMap Import.functionType? = m.importedTypes :=
    filterMap_of_withoutMaximum (fun _ _ _ => rfl) himports
  have hcount : Module.functionCount { m with memory := memory, imports := imports } =
      functions.length := by
    rw [hwell.count]
    show (imports.filterMap Import.functionType?).length + _ = _
    rw [htypes]
    rfl
  have hmetered := @instrumentBodies_metered { m with memory := memory, imports := imports }
    (fun f hf => Wasm.decode_spelled hdecode hf)
    (fun f hf target htarget => hcount ▸ hwell.calls f hf target htarget)
  rw [← hmodule, ← hinjected] at hmetered
  obtain ⟨front, rest, added, hfront, hlength, hadded, hrest⟩ := hmetered.imports
  exact ⟨m, _, hdecode,
    { hmetered with
      imports := ⟨front, rest, added, hfront, hlength, hadded, hrest.trans himports⟩
      memory := hmetered.memory.trans hmemory }⟩

/-- A contract that adds floats in a loop, with calls, a branch table, both arms of a condition, a
start function, an element and an imported memory. -/
def sampleContract : List UInt8 :=
  [0x00, 0x61, 0x73, 0x6D, 0x01, 0x00, 0x00, 0x00, 0x01, 0x08, 0x02, 0x60, 0x00, 0x00, 0x60, 0x01,
   0x7F, 0x00, 0x02, 0x18, 0x02, 0x03, 0x65, 0x6E, 0x76, 0x03, 0x6C, 0x6F, 0x67, 0x00, 0x01, 0x03,
   0x65, 0x6E, 0x76, 0x03, 0x6D, 0x65, 0x6D, 0x02, 0x01, 0x01, 0xE8, 0x07, 0x03, 0x02, 0x01, 0x00,
   0x04, 0x04, 0x01, 0x70, 0x00, 0x01, 0x07, 0x07, 0x01, 0x03, 0x72, 0x75, 0x6E, 0x00, 0x01, 0x08,
   0x01, 0x01, 0x09, 0x07, 0x01, 0x00, 0x41, 0x00, 0x0B, 0x01, 0x01, 0x0A, 0x2A, 0x01, 0x28, 0x01,
   0x02, 0x7C, 0x02, 0x40, 0x03, 0x40, 0x20, 0x00, 0x20, 0x01, 0xA0, 0x21, 0x00, 0x41, 0x07, 0x10,
   0x00, 0x41, 0x00, 0x0D, 0x00, 0x41, 0x01, 0x0E, 0x01, 0x00, 0x01, 0x0B, 0x0B, 0x41, 0x01, 0x04,
   0x40, 0x01, 0x05, 0x10, 0x01, 0x0B, 0x0B, 0x0B, 0x07, 0x01, 0x00, 0x41, 0x00, 0x0B, 0x01, 0x2A]

/-- Two functions are injected into it: the charge and the sum. -/
theorem sampleContract_instruments :
    ∃ out, instrument sampleContract defaultMaxPages = .ok out ∧ out.injected = 2 := by
  have hinjected : Instrumented.injected <$> instrument sampleContract defaultMaxPages = .ok 2 := by
    decide +kernel
  cases hout : instrument sampleContract defaultMaxPages with
  | error cause =>
    rw [hout] at hinjected
    cases hinjected
  | ok out =>
    rw [hout] at hinjected
    exact ⟨out, rfl, Except.ok.inj hinjected⟩

end MeteredWasm.Metering
