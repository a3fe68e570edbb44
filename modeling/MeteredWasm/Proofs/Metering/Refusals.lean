import MeteredWasm.Proofs.Metering.Clamping
import MeteredWasm.Proofs.Metering.InitialImage

/-!
# What instrumentation refuses

Instrumentation has three ways to fail: the bytes are no module, its memory starts above the
ceiling, or a data segment does not lie in the pages that the memory starts with. The passes over
the bodies have none, so a module is refused for one of these reasons only, and the first of them is
reported.

* `decode_fault_kind`: what is reported of bytes that are no module;
* `clampMemory_outcome`: the ceiling, for a module with one memory at most;
* `initialPages_of_clamped`: what the memory of the instrumented module starts with;
* `Refused`, `instrument_eq_error`: the reasons, each reported where it holds;
* `instrument_refuses_iff`: what is instrumented, and what is reported of the rest.
-/

namespace MeteredWasm

open Wasm (Limits Import DataSegment Module)

/-- The number of pages that the memory of a module starts with; none without a memory. -/
def Wasm.Module.initialPages (m : Module) : Nat :=
  m.memoryLimits?.elim 0 Limits.initial

/-- A segment starts before the end of some pages, and does not pass it. -/
def Wasm.DataSegment.Within (pages : Nat) (s : DataSegment) : Prop :=
  s.offset < pages * pageSize ∧ s.stop ≤ pages * pageSize

/-! ## §1 Bytes that are no module -/

namespace Wasm

theorem liftMalformed_fault_kind {α : Type} {x : Except Malformed α} {e : Fault}
    (h : liftMalformed x = .error e) : e.kind? = some .serialization := by
  cases x with
  | ok a => cases h
  | error cause =>
    cases h
    rfl

theorem segmentOffset_fault_kind {kind : SegmentKind} {offset : Initializer} {e : Fault}
    (h : segmentOffset kind offset = .error e) : e.kind? = some .serialization := by
  unfold segmentOffset at h
  split at h
  · cases h
  · cases h
    rfl

theorem RawData.toSegment_fault_kind {d : RawData} {e : Fault} (h : d.toSegment = .error e) :
    e.kind? = some .serialization := by
  unfold toSegment at h
  split at h
  · rcases Except.bind_eq_error.mp h with hoffset | ⟨_, -, hpure⟩
    · exact segmentOffset_fault_kind hoffset
    · cases hpure
  · cases h
    rfl

/-- Whatever keeps bytes from being a module is a fault of their form. -/
theorem decode_fault_kind {wasm : List UInt8} {e : Fault} (h : Module.decode wasm = .error e) :
    e.kind? = some .serialization := by
  unfold Module.decode at h
  rcases Except.bind_eq_error.mp h with hparse | ⟨layout, -, h⟩
  · exact liftMalformed_fault_kind hparse
  rcases Except.bind_eq_error.mp h with hvalidate | ⟨_, -, h⟩
  · exact liftMalformed_fault_kind hvalidate
  unfold Layout.toModule at h
  rcases Except.bind_eq_error.mp h with helements | ⟨elements, -, h⟩
  · obtain ⟨element, -, helement⟩ := mapM_eq_error helements
    rcases Except.bind_eq_error.mp helement with hoffset | ⟨_, -, hpure⟩
    · exact segmentOffset_fault_kind hoffset
    · cases hpure
  rcases Except.bind_eq_error.mp h with hdata | ⟨data, -, h⟩
  · obtain ⟨d, -, hd⟩ := mapM_eq_error hdata
    exact RawData.toSegment_fault_kind hd
  · cases h

theorem memoryLimits?_eq_none {m : Module} (h : m.memoryLimits? = none) :
    m.outline.allMemories = [] := by
  obtain ⟨hmemory, himports⟩ := Option.or_eq_none_iff.mp h
  have hnone : m.imports.filterMap Import.memory? = [] :=
    List.filterMap_eq_nil_iff.mpr (List.findSome?_eq_none_iff.mp himports)
  show m.imports.filterMap Import.memory? ++ m.memory.toList = []
  rw [hnone, hmemory]
  rfl

/-- A module with data has a memory for it. -/
theorem memoryLimits?_of_data {wasm : List UInt8} {m : Module} (h : Module.decode wasm = .ok m)
    {s : DataSegment} (hs : s ∈ m.data) : m.memoryLimits?.isSome := by
  obtain ⟨layout, functions, -, hvalid, hmodule⟩ := Layout.decode_eq_ok.mp h
  have hmemories := Layout.outline_of_toModule hvalid hmodule
  by_contra hnone
  have hempty : layout.allMemories = [] := by
    have hall := memoryLimits?_eq_none (Option.not_isSome_iff_eq_none.mp hnone)
    rw [hmemories] at hall
    exact hall
  obtain ⟨_, _, -, hdata, rfl⟩ := Layout.toModule_eq_ok.mp hmodule
  obtain ⟨d, hd, hsegment⟩ := exists_mem_left hdata hs
  obtain ⟨memory, bits, hactive, -⟩ := Layout.data_toSegment_eq_ok.mp hsegment
  have hrule := hvalid.data d hd
  simp only [Layout.dataRule, hactive, Except.bind_eq_ok, Layout.rule_eq_ok,
    decide_eq_true_eq] at hrule
  obtain ⟨_, hmemory, -⟩ := hrule
  rw [hempty] at hmemory
  exact Nat.not_lt_zero _ hmemory

end Wasm

/-! ## §2 The ceiling -/

namespace Metering

variable {ceiling : Nat} {m : Module}

/-- Imports are clamped by their first memory, if they have one at most. -/
theorem clampImports_outcome {imports : List Import}
    (hone : (imports.filterMap Import.memory?).length ≤ 1) :
    (clampImports ceiling imports).1 = (imports.findSome? Import.memory?).elim (.ok ()) fun l =>
      (clampLimits ceiling l).map fun _ => () := by
  induction imports with
  | nil => rfl
  | cons i rest ih =>
    cases hmemory : i.memory? with
    | none =>
      rw [List.filterMap_cons_none hmemory] at hone
      rw [clampImports, clampImport_of_none hmemory, List.findSome?_cons_of_isNone]
      · exact ih hone
      · rw [hmemory]
        rfl
    | some l =>
      rw [List.filterMap_cons_some hmemory] at hone
      -- no memory is behind this one
      have hrest : rest.filterMap Import.memory? = [] :=
        List.length_eq_zero_iff.mp (Nat.le_zero.mp (Nat.le_of_succ_le_succ hone))
      rw [clampImports, clampImport_of_memory hmemory, List.findSome?_cons_of_isSome, hmemory]
      · show _ = (clampLimits ceiling l).map fun _ => ()
        cases hl : clampLimits ceiling l with
        | error e => rfl
        | ok l' =>
          show (clampImports ceiling rest).1 = .ok ()
          rw [clampImports_of_none hrest]
      · rw [hmemory]
        rfl

/-- A module with one memory at most is refused if this one starts above the ceiling. -/
theorem clampMemory_outcome (hone : m.outline.allMemories.length ≤ 1) :
    (clampMemory ceiling m).1 = if ceiling < m.initialPages
      then .error (.initialMemory m.initialPages ceiling) else .ok () := by
  have hcount : (m.imports.filterMap Import.memory?).length + m.memory.toList.length ≤ 1 := by
    rwa [← List.length_append]
  have hfirst : (clampMemory ceiling m).1 = m.memoryLimits?.elim (.ok ()) fun l =>
      (clampLimits ceiling l).map fun _ => () := by
    cases hmemory : m.memory with
    | none =>
      rw [hmemory] at hcount
      rw [Wasm.Module.memoryLimits?, hmemory, Option.none_or, ← clampImports_outcome hcount,
        clampMemory, hmemory]
      rfl
    | some l =>
      rw [hmemory] at hcount
      have hnone : m.imports.filterMap Import.memory? = [] :=
        List.length_eq_zero_iff.mp (Nat.le_zero.mp (Nat.le_of_succ_le_succ hcount))
      rw [Wasm.Module.memoryLimits?, hmemory, Option.some_or, clampMemory, hmemory,
        Option.mapM_some]
      show _ = (clampLimits ceiling l).map fun _ => ()
      cases hl : clampLimits ceiling l with
      | error e => rfl
      | ok l' =>
        show (clampImports ceiling m.imports).1 = .ok ()
        rw [clampImports_of_none hnone]
  rw [hfirst, Wasm.Module.initialPages]
  cases m.memoryLimits? with
  | none => rfl
  | some l =>
    show (clampLimits ceiling l).map _ = if ceiling < l.initial then _ else _
    unfold clampLimits
    split_ifs <;> rfl

/-! ## §3 The memory of the instrumented module -/

theorem memoryLimits?_instrumentBodies (m : Module) :
    (instrumentBodies m).2.memoryLimits? = m.memoryLimits? := by
  have hinjects := instrumentBodies_injects m
  obtain ⟨front, himports, hfront⟩ := hinjects.imports
  have hnone : front.findSome? Import.memory? = none := by
    rw [List.findSome?_eq_none_iff]
    intro i hi
    obtain ⟨added, -, type, rfl, -⟩ := exists_mem_left hfront hi
    rfl
  rw [Wasm.Module.memoryLimits?, Wasm.Module.memoryLimits?, hinjects.memory, himports,
    List.findSome?_append, hnone, Option.none_or]

/-- The memory starts as it did, with another maximum. -/
theorem memoryLimits?_of_clamped (h : (clampMemory ceiling m).1 = .ok ()) :
    (instrumentBodies (clampMemory ceiling m).2).2.memoryLimits?.map Limits.withoutMaximum =
      m.memoryLimits?.map Limits.withoutMaximum := by
  obtain ⟨memory, imports, hclamped, hmemory, himports⟩ := clampMemory_eq_ok h
  have hfirst (imports : List Import) :
      (imports.findSome? Import.memory?).map Limits.withoutMaximum =
        (imports.map Import.withoutMaximum).findSome? Import.memory? := by
    rw [List.map_findSome?, List.findSome?_map]
    congr 1
    funext i
    obtain ⟨namespace_, name, kind⟩ := i
    cases kind <;> rfl
  rw [memoryLimits?_instrumentBodies, hclamped, Wasm.Module.memoryLimits?,
    Wasm.Module.memoryLimits?, Option.map_or, Option.map_or, hmemory, hfirst, hfirst, himports]

theorem initialPages_of_clamped (h : (clampMemory ceiling m).1 = .ok ()) :
    (instrumentBodies (clampMemory ceiling m).2).2.initialPages = m.initialPages := by
  have hpages (m : Module) : m.initialPages =
      (m.memoryLimits?.map Limits.withoutMaximum).elim 0 Limits.initial := by
    rw [Wasm.Module.initialPages]
    cases m.memoryLimits? <;> rfl
  rw [hpages, memoryLimits?_of_clamped h, ← hpages]

theorem data_of_clamped (h : (clampMemory ceiling m).1 = .ok ()) :
    (instrumentBodies (clampMemory ceiling m).2).2.data = m.data := by
  obtain ⟨memory, imports, hclamped, -⟩ := clampMemory_eq_ok h
  rw [(instrumentBodies_injects _).data, hclamped]

/-! ## §4 The data segments -/

/-- A segment that is refused is outside of the memory. -/
theorem overlays_fault {size : Nat} {segments : List DataSegment} {image : ByteArray} {e : Fault}
    (h : segments.foldlM (overlayWithin size) image = .error e) : e = .dataOutsideMemory := by
  induction segments generalizing image with
  | nil => cases h
  | cons s rest ih =>
    rw [List.foldlM_cons] at h
    rcases Except.bind_eq_error.mp h with hfirst | ⟨next, -, hrest⟩
    · unfold overlayWithin at hfirst
      split_ifs at hfirst
      cases hfirst
      rfl
    · exact ih hrest

/-- The image of a module that has a memory for its data. -/
theorem initialImage_eq {m : Module} (h : ∀ s ∈ m.data, m.memoryLimits?.isSome) :
    initialImage m =
      m.data.foldlM (overlayWithin (m.initialPages * pageSize)) ByteArray.empty := by
  cases hdata : m.data with
  | nil =>
    rw [initialImage, hdata]
    rfl
  | cons s rest =>
    obtain ⟨l, hl⟩ := Option.isSome_iff_exists.mp (h s (hdata ▸ List.mem_cons_self))
    rw [initialImage_eq_overlays hl, hdata, Wasm.Module.initialPages, hl]
    rfl

/-! ## §5 Instrumentation -/

/-- Under the ceiling, the data segments decide. -/
theorem instrument_of_clamped {wasm : List UInt8} {m : Module} {maxPages : Nat}
    (h : Module.decode wasm = .ok m) (hpages : m.initialPages ≤ maxPages) :
    ∃ make : ByteArray → Instrumented, instrument wasm maxPages =
      make <$> m.data.foldlM (overlayWithin (m.initialPages * pageSize)) ByteArray.empty := by
  have hclamp : (clampMemory maxPages m).1 = .ok () := by
    rw [clampMemory_outcome (Wasm.memoryLimits_of_decode h).1, if_neg (Nat.not_lt.mpr hpages)]
  have hinitial := initialPages_of_clamped hclamp
  have hdata := data_of_clamped hclamp
  let metered := instrumentBodies (clampMemory maxPages m).2
  have himage : initialImage metered.2 =
      m.data.foldlM (overlayWithin (m.initialPages * pageSize)) ByteArray.empty := by
    rw [initialImage_eq, hinitial, hdata]
    intro s hs
    rw [hdata] at hs
    rw [← Option.isSome_map (f := Limits.withoutMaximum), memoryLimits?_of_clamped hclamp,
      Option.isSome_map]
    exact Wasm.memoryLimits?_of_data h hs
  refine ⟨fun image => ⟨metered.2, metered.2.encode, image, metered.1.count⟩, ?_⟩
  rw [instrument_eq, h, ← himage]
  show ((clampMemory maxPages m).1 >>= fun _ => initialImage metered.2 >>= fun image => pure _) = _
  rw [hclamp]
  cases initialImage metered.2 <;> rfl

/-- Why bytes are not instrumented: they are no module, its memory starts above the ceiling, or it
does not and a segment lies outside of it. -/
inductive Refused (wasm : List UInt8) (maxPages : Nat) : Fault → Prop where
  | decode {e : Fault} (h : Module.decode wasm = .error e) : Refused wasm maxPages e
  | ceiling {m : Module} (h : Module.decode wasm = .ok m) (hlarge : maxPages < m.initialPages) :
      Refused wasm maxPages (.initialMemory m.initialPages maxPages)
  | image {m : Module} (h : Module.decode wasm = .ok m) (hpages : m.initialPages ≤ maxPages)
      (hout : ∃ s ∈ m.data, ¬s.Within m.initialPages) : Refused wasm maxPages .dataOutsideMemory

theorem overlays_within_iff (m : Module) :
    (∃ image, m.data.foldlM (overlayWithin (m.initialPages * pageSize)) ByteArray.empty =
      .ok image) ↔ ∀ s ∈ m.data, s.Within m.initialPages :=
  overlays_succeed_iff ByteArray.empty

variable {wasm : List UInt8} {maxPages : Nat} {e : Fault}

/-- What is refused fails for the reason. -/
theorem Refused.instrument_eq (h : Refused wasm maxPages e) :
    instrument wasm maxPages = .error e := by
  cases h with
  | decode h =>
    rw [Metering.instrument_eq, h]
    rfl
  | @ceiling m h hlarge =>
    have hclamp : (clampMemory maxPages m).1 =
        .error (.initialMemory m.initialPages maxPages) := by
      rw [clampMemory_outcome (Wasm.memoryLimits_of_decode h).1, if_pos hlarge]
    rw [Metering.instrument_eq, h]
    show ((clampMemory maxPages m).1 >>= _) = _
    rw [hclamp]
    rfl
  | @image m h hpages hout =>
    obtain ⟨make, hmake⟩ := instrument_of_clamped h hpages
    rw [hmake]
    cases himage : m.data.foldlM (overlayWithin (m.initialPages * pageSize)) ByteArray.empty with
    | error e =>
      obtain rfl := overlays_fault himage
      rfl
    | ok image =>
      obtain ⟨s, hs, houtside⟩ := hout
      exact absurd ((overlays_within_iff m).mp ⟨image, himage⟩ s hs) houtside

/-- A module with a memory under the ceiling and its data within is instrumented. -/
theorem instrument_of_within {m : Module} (h : Module.decode wasm = .ok m)
    (hpages : m.initialPages ≤ maxPages) (hdata : ∀ s ∈ m.data, s.Within m.initialPages) :
    ∃ out, instrument wasm maxPages = .ok out := by
  obtain ⟨make, hmake⟩ := instrument_of_clamped h hpages
  obtain ⟨image, himage⟩ := (overlays_within_iff m).mpr hdata
  rw [hmake, himage]
  exact ⟨make image, rfl⟩

theorem refused_or_within (wasm : List UInt8) (maxPages : Nat) :
    (∃ e, Refused wasm maxPages e) ∨ ∃ m, Module.decode wasm = .ok m ∧
      m.initialPages ≤ maxPages ∧ ∀ s ∈ m.data, s.Within m.initialPages := by
  cases hdecode : Module.decode wasm with
  | error e => exact .inl ⟨e, .decode hdecode⟩
  | ok m =>
    rcases Nat.lt_or_ge maxPages m.initialPages with hlarge | hpages
    · exact .inl ⟨_, .ceiling hdecode hlarge⟩
    · by_cases hdata : ∀ s ∈ m.data, s.Within m.initialPages
      · exact .inr ⟨m, rfl, hpages, hdata⟩
      · simp only [not_forall] at hdata
        obtain ⟨s, hs, hout⟩ := hdata
        exact .inl ⟨_, .image hdecode hpages ⟨s, hs, hout⟩⟩

theorem instrument_eq_error : instrument wasm maxPages = .error e ↔ Refused wasm maxPages e := by
  refine ⟨fun h => ?_, Refused.instrument_eq⟩
  rcases refused_or_within wasm maxPages with ⟨e', hrefused⟩ | ⟨m, hdecode, hpages, hdata⟩
  · rw [hrefused.instrument_eq] at h
    exact Except.error.inj h ▸ hrefused
  · obtain ⟨out, hout⟩ := instrument_of_within hdecode hpages hdata
    rw [hout] at h
    cases h

/-- A module is instrumented if the bytes encode one, its memory starts with no more pages than the
ceiling, and its data segments lie in these pages. Otherwise the first of this that fails is
reported. Charging, replacing float instructions and retargeting calls never fail. -/
theorem instrument_refuses_iff (wasm : List UInt8) (maxPages : Nat) :
    ((∃ out, instrument wasm maxPages = .ok out) ↔
      ∃ m, Module.decode wasm = .ok m ∧ (∀ l, m.memoryLimits? = some l → l.initial ≤ maxPages) ∧
        ∀ s ∈ m.data, s.Within m.initialPages) ∧
    (∀ e, instrument wasm maxPages = .error e ∧ e.kind? = some .serialization ↔
      Module.decode wasm = .error e) ∧
    (∀ e, instrument wasm maxPages = .error e ∧ e.kind? = some .runtime ↔
      ∃ m, Module.decode wasm = .ok m ∧
        (maxPages < m.initialPages ∧ e = .initialMemory m.initialPages maxPages ∨
          m.initialPages ≤ maxPages ∧ (∃ s ∈ m.data, ¬s.Within m.initialPages) ∧
            e = .dataOutsideMemory)) ∧
    (∀ m, ∃ metered, meterBodies m = .ok metered) ∧
    ∀ s m, replaceFloats s m = .ok (callFloats s m) := by
  have hpages (m : Module) :
      (∀ l, m.memoryLimits? = some l → l.initial ≤ maxPages) ↔ m.initialPages ≤ maxPages := by
    rw [Wasm.Module.initialPages]
    cases m.memoryLimits? <;> simp
  simp only [hpages]
  refine ⟨?accepts, fun e => ?decode, fun e => ?refuses, fun m => ⟨_, meterBodies_eq m⟩,
    replaceFloats_eq⟩
  case accepts =>
    refine ⟨fun ⟨out, hout⟩ => ?_, fun ⟨m, h, hle, hdata⟩ => instrument_of_within h hle hdata⟩
    refine (refused_or_within wasm maxPages).resolve_left ?_
    rintro ⟨e, hrefused⟩
    rw [hrefused.instrument_eq] at hout
    cases hout
  case decode =>
    rw [instrument_eq_error]
    refine ⟨?_, fun h => ⟨.decode h, Wasm.decode_fault_kind h⟩⟩
    rintro ⟨hrefused, hkind⟩
    cases hrefused with
    | decode h => exact h
    | ceiling | image => cases hkind
  case refuses =>
    rw [instrument_eq_error]
    constructor
    · rintro ⟨hrefused, hkind⟩
      cases hrefused with
      | decode h =>
        rw [Wasm.decode_fault_kind h] at hkind
        cases hkind
      | ceiling h hlarge => exact ⟨_, h, .inl ⟨hlarge, rfl⟩⟩
      | image h hle hout => exact ⟨_, h, .inr ⟨hle, hout, rfl⟩⟩
    · rintro ⟨m, h, ⟨hlarge, rfl⟩ | ⟨hle, hout, rfl⟩⟩
      · exact ⟨.ceiling h hlarge, rfl⟩
      · exact ⟨.image h hle hout, rfl⟩

end Metering

end MeteredWasm
