import MeteredWasm.Metering.Instrument
import MeteredWasm.Proofs.Metering.Injection
import MeteredWasm.Proofs.SoftFloat.Opcodes

/-!
# The replacement of float instructions as a whole

Instruction by instruction, an opcode is tested, the function of the host is looked up, its import
is added and a call is written. Every opcode that passes the test has its function, so this never
fails; and what comes of it is said at once: the imports in the order of the instructions, and then
the bodies with every call at its place.

* `replaceFloats_eq`: the replacement, as imports and calls;
* `meterBodies_eq`, `instrument_eq`: charging, replacing and retargeting never fail.
-/

namespace MeteredWasm.Metering

open Wasm (Instr Function Module)

/-! ## §1 Every float opcode has its function -/

/-- The opcodes that are replaced are those of the float instructions. -/
theorem isFloatOpcode_eq (opcode : UInt8) :
    isFloatOpcode opcode = (SoftFloat.Operator.ofOpcode? opcode).isSome := by
  have htable : ∀ n < 256, isFloatOpcode (UInt8.ofNat n) =
      (SoftFloat.Operator.ofOpcode? (UInt8.ofNat n)).isSome := by
    decide +kernel
  have hopcode := htable opcode.toNat opcode.toNat_lt
  rwa [UInt8.ofNat_toNat] at hopcode

theorem floatIntrinsic?_of_some {opcode : UInt8} {op : SoftFloat.Operator}
    (h : SoftFloat.Operator.ofOpcode? opcode = some op) :
    floatIntrinsic? opcode = some (.float op) := by
  rw [floatIntrinsic?, h]
  exact Intrinsic.find?_float (SoftFloat.Operator.ofOpcode?_mem h)

/-! ## §2 Instruction by instruction -/

/-- A later state of an injection: what was injected before has kept its place. -/
def Injection.Extends (s s' : Injection) : Prop :=
  s'.base = s.base ∧ s.names <+: s'.names

theorem Injection.Extends.refl (s : Injection) : s.Extends s :=
  ⟨rfl, List.prefix_rfl⟩

theorem Injection.Extends.trans {s₁ s₂ s₃ : Injection} (h : s₁.Extends s₂) (h' : s₂.Extends s₃) :
    s₁.Extends s₃ :=
  ⟨h'.1.trans h.1, h.2.trans h'.2⟩

/-- Logical indices do not change. -/
theorem Injection.Extends.logical_eq {s s' : Injection} (h : s.Extends s') {name : String}
    (hname : name ∈ s.names) : s'.logical name = s.logical name := by
  obtain ⟨later, hlater⟩ := h.2
  rw [Injection.logical, Injection.logical, h.1, ← hlater, List.idxOf_append_of_mem hname]

theorem extends_add (s : Injection) (m : Module) (name : String) (signature : Wasm.Signature) :
    s.Extends (s.add m name signature).1 := by
  unfold Injection.add
  split_ifs
  · exact .refl s
  · exact ⟨rfl, List.prefix_append _ _⟩

theorem mem_names_add (s : Injection) (m : Module) (name : String) (signature : Wasm.Signature) :
    name ∈ (s.add m name signature).1.names := by
  unfold Injection.add
  split_ifs with hknown
  · exact hknown
  · exact List.mem_append_right _ (List.mem_singleton_self name)

theorem extends_addOperators (state : Injection × Module) (ops : List SoftFloat.Operator) :
    state.1.Extends (ops.foldl addOperator state).1 := by
  induction ops generalizing state with
  | nil => exact .refl _
  | cons op ops ih => exact (extends_add state.1 state.2 _ _).trans (ih (addOperator state op))

theorem run_replaceFloat_other {i : Instr} (h : floatOperator? i = none)
    (state : Injection × Module) : (replaceFloat i).run state = .ok (i, state) := by
  have hopcode : isFloatOpcode i.opcode = false := by
    rw [isFloatOpcode_eq]
    exact congrArg Option.isSome h
  rw [replaceFloat, hopcode]
  rfl

theorem run_replaceFloat_float {i : Instr} {op : SoftFloat.Operator}
    (h : floatOperator? i = some op) (state : Injection × Module) :
    (replaceFloat i).run state =
      .ok (.call ((addOperator state op).1.logical op.symbol), addOperator state op) := by
  have hopcode : isFloatOpcode i.opcode = true := by
    rw [isFloatOpcode_eq]
    exact congrArg Option.isSome h
  rw [replaceFloat, hopcode, floatIntrinsic?_of_some h]
  rfl

/-- The calls of one body, for any later state of the injection. -/
theorem run_replaceBody (body : List Instr) (state : Injection × Module) {s : Injection}
    (h : ((body.filterMap floatOperator?).foldl addOperator state).1.Extends s) :
    (body.mapM replaceFloat).run state =
      .ok (body.map (callOperator s), (body.filterMap floatOperator?).foldl addOperator state) := by
  induction body generalizing state with
  | nil => rfl
  | cons i body ih =>
    rw [List.mapM_cons, StateT.run_bind, List.map_cons, callOperator]
    cases hi : floatOperator? i with
    | none =>
      rw [List.filterMap_cons_none hi] at h ⊢
      rw [run_replaceFloat_other hi]
      show (body.mapM replaceFloat >>= fun is => pure (i :: is)).run state = _
      rw [StateT.run_bind, ih state h]
      rfl
    | some op =>
      rw [List.filterMap_cons_some hi] at h ⊢
      have hlater := (extends_addOperators (addOperator state op) _).trans h
      rw [run_replaceFloat_float hi, ← hlater.logical_eq (mem_names_add _ _ _ _)]
      show (body.mapM replaceFloat >>= fun is => pure (.call (s.logical op.symbol) :: is)).run
        (addOperator state op) = _
      rw [StateT.run_bind, ih (addOperator state op) h]
      rfl

theorem run_replaceBodies (functions : List Function) (state : Injection × Module)
    {s : Injection}
    (h : ((functions.flatMap fun f => f.body.filterMap floatOperator?).foldl addOperator
      state).1.Extends s) :
    (functions.mapM replaceFloatsOf).run state =
      .ok (functions.map fun f => { f with body := f.body.map (callOperator s) },
        (functions.flatMap fun f => f.body.filterMap floatOperator?).foldl addOperator state) := by
  induction functions generalizing state with
  | nil => rfl
  | cons f functions ih =>
    rw [List.flatMap_cons, List.foldl_append] at h ⊢
    have hbody := run_replaceBody f.body state ((extends_addOperators _ _).trans h)
    rw [List.mapM_cons, StateT.run_bind, replaceFloatsOf, StateT.run_bind, hbody]
    show (functions.mapM replaceFloatsOf >>= fun fs =>
      pure ({ f with body := f.body.map (callOperator s) } :: fs)).run _ = _
    rw [StateT.run_bind, ih _ h]
    rfl

theorem foldl_addOperator_functions (state : Injection × Module) (ops : List SoftFloat.Operator) :
    (ops.foldl addOperator state).2.functions = state.2.functions := by
  induction ops generalizing state with
  | nil => rfl
  | cons op ops ih => exact (ih (addOperator state op)).trans (add_functions _ _ _ _)

/-- Replacing float instructions never fails: it adds the imports of all of them in order, and
writes a call in the place of each. -/
theorem replaceFloats_eq (s : Injection) (m : Module) :
    replaceFloats s m = .ok (callFloats s m) := by
  have hrun := run_replaceBodies m.functions (s, m) (.refl _)
  have hfunctions := foldl_addOperator_functions (s, m) (floatOperators m)
  rw [replaceFloats, hrun]
  simp only [callFloats, hfunctions]
  rfl

/-! ## §3 Instrumentation -/

/-- Charge a module, replace its float instructions, and give all calls their final targets. -/
def instrumentBodies (m : Module) : Injection × Module :=
  let (s, m) := chargeModule (Injection.start m) m
  let (s, m) := callFloats s m
  (s, s.remapCalls m)

theorem meterBodies_eq (m : Module) : meterBodies m = .ok (instrumentBodies m) := by
  let charged := chargeModule (Injection.start m) m
  show (replaceFloats charged.1 charged.2 >>= fun state =>
    pure (state.1, state.1.remapCalls state.2)) = _
  rw [replaceFloats_eq]
  rfl

/-- Decoding, the ceiling and the image are all that instrumentation can fail for. -/
theorem instrument_eq (wasm : List UInt8) (maxPages : Nat) :
    instrument wasm maxPages = do
      let decoded ← Module.decode wasm
      let (outcome, clamped) := clampMemory maxPages decoded
      outcome
      let (s, m) := instrumentBodies clamped
      return { module := m, wasm := m.encode, image := ← initialImage m, injected := s.count } := by
  unfold instrument
  simp only [meterBodies_eq]
  rfl

end MeteredWasm.Metering
