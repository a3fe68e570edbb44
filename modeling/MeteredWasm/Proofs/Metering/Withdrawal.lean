import MeteredWasm.Proofs.Metering.Charges

/-!
# Taking the instrumentation back

Instrumentation only adds what it says it adds: whoever takes out the charges, puts the float
instructions back in place of the calls that stand for them, and moves all function indices back,
has the module that was decoded, up to the maximum of its memory.
-/

namespace MeteredWasm.Metering

open Wasm (Import Export ElementSegment Instr Function Module)

/-! ## §1 The way back -/

/-- An index behind `k` injected functions, as it was before. -/
def withdrawIndex (k index : Nat) : Option Nat :=
  if k ≤ index then some (index - k) else none

/-- An instruction as it was before. Calls of injected functions stand for the float instruction of
their name; the call that takes a charge stands for nothing. -/
def withdrawInstr (m : Module) (k : Nat) : Instr → Option Instr
  | .call target =>
    if target = 0 then none
    else if target < k then
      (m.imports[target]?.bind fun i => SoftFloat.Operator.ofSymbol? i.name).map
        fun op => .raw [op.opcode]
    else some (.call (target - k))
  | .raw bytes => some (.raw bytes)

/-- Instructions as they were before, charges taken out. -/
def withdrawCode (m : Module) (k : Nat) (code : List Instr) : Option (List Instr) :=
  (uncharge code).mapM (withdrawInstr m k)

def withdrawFunction (m : Module) (k : Nat) (f : Function) : Option Function :=
  (withdrawCode m k f.body).map fun body => { f with body := body }

def withdrawExport (k : Nat) (e : Export) : Option Export :=
  match e.kind with
  | .function => (withdrawIndex k e.index).map fun index => { e with index := index }
  | _ => some e

def withdrawElements (k : Nat) (s : ElementSegment) : Option ElementSegment :=
  (s.functions.mapM (withdrawIndex k)).map fun functions => { s with functions := functions }

/-- A module without its first `k` imports and with only so many of its types: bodies as they were,
and every index of a function that many lower. -/
def withdraw (k typeCount : Nat) (m : Module) : Option Module := do
  let functions ← m.functions.mapM (withdrawFunction m k)
  let exports ← m.exports.mapM (withdrawExport k)
  let start ← m.start.mapM (withdrawIndex k)
  let elements ← m.elements.mapM (withdrawElements k)
  return { m with
    types := m.types.take typeCount
    imports := m.imports.drop k
    functions := functions
    exports := exports
    start := start
    elements := elements }

/-! ## §2 Each part comes back -/

/-- What undoes a change of each item undoes it on a list. -/
theorem mapM_map_eq_some {α β : Type} {f : α → β} {g : β → Option α} {as : List α}
    (h : ∀ a ∈ as, g (f a) = some a) : (as.map f).mapM g = some as := by
  rw [mapM_eq_some, List.forall₂_map_left_iff, List.forall₂_same]
  exact h

theorem withdrawIndex_add (k index : Nat) : withdrawIndex k (index + k) = some index := by
  rw [withdrawIndex, if_pos (Nat.le_add_left k index), Nat.add_sub_cancel]

theorem withdrawExport_moveExport (k : Nat) (e : Export) :
    withdrawExport k (moveExport k e) = some e := by
  obtain ⟨name, kind, index⟩ := e
  cases kind with
  | function =>
    show (withdrawIndex k (index + k)).map _ = _
    rw [withdrawIndex_add]
    rfl
  | _ => rfl

theorem withdrawElements_moveElements (k : Nat) (s : ElementSegment) :
    withdrawElements k (moveElements k s) = some s := by
  have hfunctions : (s.functions.map (· + k)).mapM (withdrawIndex k) = some s.functions :=
    mapM_map_eq_some fun index _ => withdrawIndex_add k index
  rw [withdrawElements, moveElements, hfunctions]
  rfl

/-- A replacement leads back to what it replaces. -/
theorem Replaces.withdrawInstr {m' : Module} {k : Nat} {i j : Instr} (hk : 1 ≤ k)
    (h : Replaces m' k i j) : withdrawInstr m' k j = some i := by
  cases h with
  | call target =>
    rw [Metering.withdrawInstr, if_neg (by omega), if_neg (by omega), Nat.add_sub_cancel]
  | float hop hpositive hlt himport _ =>
    rw [Metering.withdrawInstr, if_neg (by omega), if_pos hlt, himport, Option.bind_some,
      SoftFloat.Operator.ofSymbol?_symbol hop]
    rfl
  | other _ => rfl

/-- Nothing is replaced by the call that takes a charge. -/
theorem Replaces.ne_charge {m' : Module} {k : Nat} {i j : Instr} (hk : 1 ≤ k)
    (h : Replaces m' k i j) : j ≠ .call 0 := by
  intro hcharge
  have hback := h.withdrawInstr hk
  rw [hcharge] at hback
  cases hback

theorem Metered.withdrawCode {m m' : Module} {k : Nat} {image : Instr → Instr}
    (h : Metered m k image m') {f : Function} (hf : f ∈ m.functions) :
    Metering.withdrawCode m' k (meter image 0 f.body) = some f.body := by
  have himage : ∀ i ∈ f.body, image i ≠ .call 0 :=
    fun i hi => (h.replaces f hf i hi).ne_charge h.injected
  rw [Metering.withdrawCode, uncharge_meter himage (h.fits hf)]
  exact mapM_map_eq_some fun i hi => (h.replaces f hf i hi).withdrawInstr h.injected

theorem Replaces.not_float {m' : Module} {k : Nat} {i j : Instr} (h : Replaces m' k i j) :
    floatOperator? j = none := by
  cases h with
  | call target => rfl
  | float => rfl
  | other hother => exact hother

/-- A metered body has no float instruction when the images are none. -/
theorem meter_not_float {image : Instr → Instr} {pending : Nat} {code : List Instr}
    (himage : ∀ i ∈ code, floatOperator? (image i) = none) :
    ∀ i ∈ meter image pending code, floatOperator? i = none := by
  induction code generalizing pending with
  | nil =>
    intro i hi
    cases hi
  | cons first rest ih =>
    have hfirst := himage first List.mem_cons_self
    have hrest := fun pending => @ih pending fun i hi => himage i (List.mem_cons_of_mem _ hi)
    have hcharge : ∀ i ∈ chargeFor pending first, floatOperator? i = none := by
      intro i hi
      rcases eq_of_mem_chargeFor hi with rfl | rfl
      · rfl
      · rfl
    intro i hi
    rw [meter] at hi
    rcases List.mem_append.mp hi with hfor | hbehind
    · exact hcharge i hfor
    · rcases List.mem_cons.mp hbehind with rfl | hmem
      · exact hfirst
      · exact hrest _ i hmem

/-! ## §3 The module comes back -/

theorem Metered.withdraw {m m' : Module} {k : Nat} {image : Instr → Instr}
    (h : Metered m k image m') :
    ∃ restored, Metering.withdraw k m.types.length m' = some restored ∧
      restored.withoutMaximum = m.withoutMaximum := by
  have hfunctions : m'.functions.mapM (withdrawFunction m' k) = some m.functions := by
    rw [h.functions]
    apply mapM_map_eq_some
    intro f hf
    rw [withdrawFunction, h.withdrawCode hf]
    rfl
  have hexports : m'.exports.mapM (withdrawExport k) = some m.exports := by
    rw [h.exports]
    exact mapM_map_eq_some fun e _ => withdrawExport_moveExport k e
  have hstart : m'.start.mapM (withdrawIndex k) = some m.start := by
    rw [h.start]
    cases m.start with
    | none => rfl
    | some index =>
      show some <$> withdrawIndex k (index + k) = _
      rw [withdrawIndex_add]
      rfl
  have helements : m'.elements.mapM (withdrawElements k) = some m.elements := by
    rw [h.elements]
    exact mapM_map_eq_some fun s _ => withdrawElements_moveElements k s
  have htypes : m'.types.take m.types.length = m.types := by
    obtain ⟨extra, hextra⟩ := h.types
    rw [← hextra, List.take_left]
  obtain ⟨front, rest, -, himports, hfront, -, hrest⟩ := h.imports
  -- the injected imports are the first ones
  have hdropped : m'.imports.drop k = rest := by
    rw [himports, ← hfront, List.drop_left]
  refine ⟨{ m with imports := rest, memory := m'.memory }, ?_, ?_⟩
  · simp only [Metering.withdraw, hfunctions, hexports, hstart, helements, htypes, hdropped,
      h.table, h.globals, h.data]
    rfl
  · simp only [Module.withoutMaximum, hrest, h.memory]

/-- Instrumentation only adds what it says it adds. No float instruction is left, and taking the
charges, the injected imports and the added types back gives the decoded module, up to the maximum
of its memory. -/
theorem instrument_withdraw {wasm : List UInt8} {maxPages : Nat} {out : Instrumented}
    (h : instrument wasm maxPages = .ok out) :
    ∃ m restored, Module.decode wasm = .ok m ∧
      (∀ f ∈ out.module.functions, ∀ i ∈ f.body, floatOperator? i = none) ∧
      withdraw out.injected m.types.length out.module = some restored ∧
      restored.withoutMaximum = m.withoutMaximum := by
  obtain ⟨m, image, hdecode, hmetered⟩ := instrument_metered h
  obtain ⟨restored, hwithdraw, hsame⟩ := hmetered.withdraw
  refine ⟨m, restored, hdecode, ?_, hwithdraw, hsame⟩
  intro f hf
  -- the bodies consist of charges and of replacements, none of which is a float instruction
  rw [hmetered.functions] at hf
  obtain ⟨f₀, hf₀, rfl⟩ := List.mem_map.mp hf
  exact meter_not_float fun i hi => (hmetered.replaces f₀ hf₀ i hi).not_float

theorem instrument_withdraw_sample :
    ∃ out, instrument sampleContract defaultMaxPages = .ok out ∧ out.injected = 2 ∧
      ∃ m restored, Module.decode sampleContract = .ok m ∧
        (∀ f ∈ out.module.functions, ∀ i ∈ f.body, floatOperator? i = none) ∧
        withdraw out.injected m.types.length out.module = some restored ∧
        restored.withoutMaximum = m.withoutMaximum := by
  obtain ⟨out, hout, hinjected⟩ := sampleContract_instruments
  exact ⟨out, hout, hinjected, instrument_withdraw hout⟩

end MeteredWasm.Metering
