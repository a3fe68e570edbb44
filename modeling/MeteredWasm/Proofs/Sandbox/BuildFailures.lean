import MeteredWasm.Proofs.Metering.FloatPass
import MeteredWasm.Proofs.Sandbox.Caching

/-!
# Why building fails

A code that does not become a module that is ready to run fails at one of a few steps. None of them
is left by an exit, which only running modules know.
-/

namespace MeteredWasm

open Wasm (Module)

/-! ## §1 What never exits -/

/-- Whatever comes of a computation, it is not an exit. -/
def NeverExits {α : Type} (x : Except Fault α) : Prop :=
  ∀ code, x ≠ .error (.exit code)

namespace NeverExits

variable {α β : Type}

theorem ok (a : α) : NeverExits (.ok a : Except Fault α) := nofun

/-- Faults of every kind are something else than exits. -/
theorem error {e : Fault} (h : e.kind? ≠ none) : NeverExits (.error e : Except Fault α) := by
  rintro code heq
  cases heq
  exact h rfl

/-- What a computation failed with may be passed on. -/
theorem passOn {x : Except Fault α} {e : Fault} (hx : NeverExits x) (h : x = .error e) :
    NeverExits (.error e : Except Fault β) := by
  rintro code heq
  cases heq
  exact hx code h

theorem bind {x : Except Fault α} {f : α → Except Fault β} (hx : NeverExits x)
    (hf : ∀ a, NeverExits (f a)) : NeverExits (x >>= f) := by
  cases x with
  | error e => exact hx.passOn rfl
  | ok a => exact hf a

theorem map {x : Except Fault α} (hx : NeverExits x) (f : α → β) : NeverExits (x.map f) := by
  cases x with
  | error e => exact hx.passOn rfl
  | ok a => exact .ok (f a)

theorem mapM {f : α → Except Fault β} (hf : ∀ a, NeverExits (f a)) (as : List α) :
    NeverExits (as.mapM f) := by
  induction as with
  | nil => exact .ok []
  | cons a as ih =>
    rw [List.mapM_cons]
    exact (hf a).bind fun b => ih.bind fun bs => .ok (b :: bs)

theorem foldlM {f : β → α → Except Fault β} (hf : ∀ b a, NeverExits (f b a)) (as : List α)
    (b : β) : NeverExits (as.foldlM f b) := by
  induction as generalizing b with
  | nil => exact .ok b
  | cons a as ih =>
    rw [List.foldlM_cons]
    exact (hf b a).bind ih

end NeverExits

/-! ## §2 Building never exits -/

namespace Wasm

theorem neverExits_liftMalformed {α : Type} (x : Except Malformed α) :
    NeverExits (liftMalformed x) := by
  cases x with
  | error cause => exact .error (by simp [Fault.kind?])
  | ok a => exact .ok a

theorem neverExits_segmentOffset (kind : SegmentKind) (offset : Initializer) :
    NeverExits (segmentOffset kind offset) := by
  unfold segmentOffset
  split
  · exact .ok _
  · exact .error (by simp [Fault.kind?])

theorem neverExits_decode (wasm : List UInt8) : NeverExits (Module.decode wasm) := by
  unfold Module.decode
  refine (neverExits_liftMalformed _).bind fun l => (neverExits_liftMalformed _).bind fun _ => ?_
  unfold Layout.toModule
  refine (NeverExits.mapM (fun e => ?_) _).bind fun elements =>
    (NeverExits.mapM (fun d => ?_) _).bind fun data => .ok _
  · exact (neverExits_segmentOffset _ _).bind fun _ => .ok _
  · unfold RawData.toSegment
    cases d.mode with
    | active memory offset => exact (neverExits_segmentOffset _ _).bind fun _ => .ok _
    | passive => exact .error (by simp [Fault.kind?])

end Wasm

namespace Metering

theorem neverExits_clampLimits (ceiling : Nat) (l : Wasm.Limits) :
    NeverExits (clampLimits ceiling l) := by
  unfold clampLimits
  split
  · exact .error (by simp [Fault.kind?])
  · exact .ok _

theorem neverExits_clampImports (ceiling : Nat) (imports : List Wasm.Import) :
    NeverExits (clampImports ceiling imports).1 := by
  induction imports with
  | nil => exact .ok ()
  | cons i rest ih =>
    have hclamp : NeverExits (clampImport ceiling i) := by
      unfold clampImport
      split
      · exact (neverExits_clampLimits ceiling _).bind fun _ => .ok _
      · exact .ok _
    unfold clampImports
    cases himport : clampImport ceiling i with
    | error e => exact hclamp.passOn himport
    | ok i' => exact ih

theorem neverExits_clampMemory (ceiling : Nat) (m : Module) :
    NeverExits (clampMemory ceiling m).1 := by
  have hmemory : NeverExits (m.memory.mapM (clampLimits ceiling)) := by
    cases m.memory with
    | none => exact .ok none
    | some l =>
      rw [Option.mapM_some]
      exact (neverExits_clampLimits ceiling l).map some
  unfold clampMemory
  cases hclamped : m.memory.mapM (clampLimits ceiling) with
  | error e => exact hmemory.passOn hclamped
  | ok memory => exact neverExits_clampImports ceiling m.imports

theorem neverExits_initialImage (m : Module) : NeverExits (initialImage m) := by
  unfold initialImage
  split
  · exact .ok _
  · split
    · exact .error (by simp [Fault.kind?])
    · refine .foldlM (fun image s => ?_) _ _
      unfold overlayWithin
      split
      · exact .ok _
      · exact .error (by simp [Fault.kind?])

theorem neverExits_instrument (wasm : List UInt8) (maxPages : Nat) :
    NeverExits (instrument wasm maxPages) := by
  rw [instrument_eq]
  exact (Wasm.neverExits_decode wasm).bind fun m => (neverExits_clampMemory maxPages m).bind
    fun _ => (neverExits_initialImage _).bind fun _ => .ok _

end Metering

theorem Visibility.neverExits_link (v : Visibility) (m : Module) : NeverExits (v.link m) := by
  refine .mapM (fun i => ?_) _
  unfold linkImport
  split
  · split
    · exact .error (by simp [Fault.kind?])
    · unfold resolve
      split
      · exact .error (by simp [Fault.kind?])
      · split
        · exact .ok _
        · exact .error (by simp [Fault.kind?])
  · exact .error (by simp [Fault.kind?])

/-! ## §3 Steps of building -/

namespace Loaded

variable {σ Inst : Type} {engine : Engine σ Inst}

/-- With a machine that never exits while it instantiates a module, building one never exits. -/
theorem neverExits_build
    (hexit : ∀ wasm imports s, NeverExits (engine.instantiate wasm imports s).1) (maxPages : Nat)
    (code : List UInt8) (s : σ) : NeverExits (build engine maxPages code s).1 := by
  have hlinked : NeverExits (linked maxPages code) :=
    (Metering.neverExits_instrument code maxPages).bind fun out =>
      (Visibility.everything.neverExits_link out.module).bind fun _ => .ok _
  rw [build_eq]
  cases houtcome : linked maxPages code with
  | error e => exact hlinked.passOn houtcome
  | ok r => exact (hexit _ _ _).map _

/-- Why a code cannot be built: it cannot be instrumented, as it cannot be decoded, its memory is
too large or its data does not fit, or it cannot be linked, or the machine does not instantiate
it. -/
inductive BuildFails (engine : Engine σ Inst) (maxPages : Nat) (code : List UInt8) (s : σ) :
    Fault → Prop where
  | decode {e : Fault} (h : Module.decode code = .error e) : BuildFails engine maxPages code s e
  | clamp {m : Module} {e : Fault} (hdecode : Module.decode code = .ok m)
      (h : (Metering.clampMemory maxPages m).1 = .error e) : BuildFails engine maxPages code s e
  | image {m : Module} {e : Fault} (hdecode : Module.decode code = .ok m)
      (hclamp : (Metering.clampMemory maxPages m).1 = .ok ())
      (h : Metering.initialImage (Metering.instrumentBodies
        (Metering.clampMemory maxPages m).2).2 = .error e) : BuildFails engine maxPages code s e
  | link {out : Metering.Instrumented} {e : Fault}
      (hinstrument : Metering.instrument code maxPages = .ok out)
      (h : Visibility.everything.link out.module = .error e) : BuildFails engine maxPages code s e
  | instantiate {out : Metering.Instrumented} {imports : List Intrinsic} {e : Fault}
      (hinstrument : Metering.instrument code maxPages = .ok out)
      (hlink : Visibility.everything.link out.module = .ok imports)
      (h : (engine.instantiate out.wasm imports s).1 = .error e) :
      BuildFails engine maxPages code s e

/-- A code that cannot be instrumented cannot be built. -/
theorem BuildFails.of_instrument {maxPages : Nat} {code : List UInt8} {e : Fault}
    (h : Metering.instrument code maxPages = .error e) (s : σ) :
    BuildFails engine maxPages code s e := by
  rw [Metering.instrument_eq] at h
  cases hdecode : Module.decode code with
  | error cause =>
    rw [hdecode] at h
    cases h
    exact .decode hdecode
  | ok m =>
    rw [hdecode] at h
    cases hclamp : (Metering.clampMemory maxPages m).1 with
    | error cause =>
      simp only [bind, Except.bind, hclamp] at h
      cases h
      exact .clamp hdecode hclamp
    | ok _ =>
      simp only [bind, Except.bind, hclamp] at h
      cases himage : Metering.initialImage (Metering.instrumentBodies
        (Metering.clampMemory maxPages m).2).2 with
      | error cause =>
        rw [himage] at h
        cases h
        exact .image hdecode hclamp himage
      | ok image =>
        rw [himage] at h
        cases h

theorem build_eq_error {maxPages : Nat} {code : List UInt8} {s : σ} {e : Fault} :
    (build engine maxPages code s).1 = .error e ↔ BuildFails engine maxPages code s e := by
  rw [build_eq, linked]
  constructor
  · intro h
    cases hinstrument : Metering.instrument code maxPages with
    | error cause =>
      rw [hinstrument] at h
      cases h
      exact .of_instrument hinstrument s
    | ok out =>
      cases hlink : Visibility.everything.link out.module with
      | error cause =>
        simp only [bind, Except.bind, hinstrument, hlink] at h
        cases h
        exact .link hinstrument hlink
      | ok imports =>
        simp only [bind, Except.bind, hinstrument, hlink, pure, Except.pure] at h
        cases hinst : (engine.instantiate out.wasm imports s).1 with
        | error cause =>
          rw [hinst] at h
          cases h
          exact .instantiate hinstrument hlink hinst
        | ok inst =>
          rw [hinst] at h
          cases h
  · intro h
    cases h with
    | decode hdecode =>
      simp only [Metering.instrument_eq, bind, Except.bind, hdecode]
    | clamp hdecode hclamp =>
      simp only [Metering.instrument_eq, bind, Except.bind, hdecode, hclamp]
    | image hdecode hclamp himage =>
      simp only [Metering.instrument_eq, bind, Except.bind, hdecode, hclamp, himage]
    | link hinstrument hlink =>
      simp only [bind, Except.bind, hinstrument, hlink]
    | instantiate hinstrument hlink hinst =>
      simp only [bind, Except.bind, hinstrument, hlink, pure, Except.pure, hinst, Except.map]

end Loaded

end MeteredWasm
